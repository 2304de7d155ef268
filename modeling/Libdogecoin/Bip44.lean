/-
# BIP44 keys

`derive_bip44_extended_key` of `bip44.c` : it writes a path and derives the private key along it.

* `hdGenerateKey_keyPath` : what is derived along a path with hardened components;
* `deriveBip44ExtendedKey_eq` : the path of an account, a change level and an index.
-/
import Libdogecoin.HdNode

namespace Libdogecoin

namespace HdNode

variable {kp : KeyPlatform} {cs : List (UInt32 × Bool)}

/-! ## Paths with hardened components -/

/-- A number in a path, with the mark of a hardened child or without. -/
def component (n : UInt32) (hardened : Bool) : List Char :=
  Nat.toDigits 10 n.toNat ++ if hardened then ['\''] else []

/-- The child number of a component. -/
def childNumber (n : UInt32) (hardened : Bool) : UInt32 := if hardened then n ||| 0x80000000 else n

/-- The path of a list of components. -/
def keyPath (cs : List (UInt32 × Bool)) : List Char :=
  'm' :: '/' :: ['/'].intercalate (cs.map fun c => component c.1 c.2)

theorem slash_notMem_component (n : UInt32) (hardened : Bool) : '/' ∉ component n hardened := by
  unfold component
  rw [List.mem_append, not_or]
  refine ⟨fun hmem => absurd (digits_toDigits _ hmem) (by decide), ?_⟩
  cases hardened with
  | false => exact List.not_mem_nil
  | true => decide

theorem component_ne_nil (n : UInt32) (hardened : Bool) : component n hardened ≠ [] := by
  unfold component
  exact fun h => Nat.toDigits_ne_nil (List.append_eq_nil_iff.mp h).1

/-- The tokens of the path are its components. -/
theorem strtok_components (h : cs ≠ []) :
    strtok (['/'].intercalate (cs.map fun c => component c.1 c.2)) = cs.map fun c =>
      component c.1 c.2 := by
  have hslash : ∀ l ∈ cs.map (fun c => component c.1 c.2), '/' ∉ l := by
    intro l hl
    obtain ⟨c, -, rfl⟩ := List.mem_map.mp hl
    exact slash_notMem_component c.1 c.2
  unfold strtok
  rw [List.splitOn_intercalate '/' hslash (by simpa using h), List.filter_eq_self]
  intro l hl
  obtain ⟨c, -, rfl⟩ := List.mem_map.mp hl
  exact decide_eq_true (component_ne_nil c.1 c.2)

theorem scanToken_component (n : UInt32) (hardened : Bool) :
    scanToken false (component n hardened) = some hardened := by
  have hscan : ∀ ds : List Char, (∀ c ∈ ds, c ∈ digits) →
      scanToken false (ds ++ if hardened then ['\''] else []) = some hardened := by
    intro ds hds
    induction ds with
    | nil =>
      cases hardened with
      | false => rfl
      | true => rfl
    | cons c rest ih =>
      have hc := hds c List.mem_cons_self
      rw [List.cons_append, scanToken, if_neg (notMem_primes hc), if_pos hc]
      exact ih fun d hd => hds d (List.mem_cons_of_mem _ hd)
  exact hscan _ digits_toDigits

theorem strtoull_component (n : UInt32) (hardened : Bool) :
    strtoull (component n hardened) = n.toNat := by
  have hn := n.toNat_lt
  have hall : ∀ c ∈ Nat.toDigits 10 n.toNat, decide (c ∈ digits) = true := fun c hc =>
    decide_eq_true (digits_toDigits c hc)
  have hrest : (if hardened then ['\''] else []).takeWhile (· ∈ digits) = [] := by
    cases hardened with
    | false => rfl
    | true => rfl
  unfold strtoull component
  rw [List.takeWhile_append_of_pos hall, hrest, List.append_nil, Nat.ofDigitChars_ten_toDigits]
  exact Nat.min_eq_left (by omega)

/-- A component of a path is read back as its child number. -/
theorem deriveToken_component (node : HdNode) (n : UInt32) (hardened : Bool) :
    deriveToken kp false node (component n hardened) =
      (node.privateCkd kp (childNumber n hardened), true) := by
  have hn := n.toNat_lt
  unfold deriveToken
  rw [scanToken_component]
  dsimp only
  rw [strtoull_component, if_neg (by omega), UInt32.ofNat_toNat]
  cases hardened with
  | false => rfl
  | true => rfl

/-- Private derivation along the components of a path. -/
theorem deriveTokens_components (cs : List (UInt32 × Bool)) (node : HdNode) :
    deriveTokens kp false (cs.map fun c => component c.1 c.2) node =
      ((cs.map fun c => childNumber c.1 c.2).foldl (privateCkd kp) node, true) := by
  induction cs generalizing node with
  | nil => rfl
  | cons c cs ih =>
    rw [List.map_cons, deriveTokens, deriveToken_component]
    exact ih _

/-- What `dogecoin_hd_generate_key` derives along a path of components. -/
theorem hdGenerateKey_keyPath (h : cs ≠ []) (out : HdNode) (key : Bytes) (depth : UInt32)
    (chaincode : Bytes) :
    hdGenerateKey kp out (keyPath cs) key depth chaincode false =
      ((cs.map fun c => childNumber c.1 c.2).foldl (privateCkd kp)
        (pathStart kp key depth chaincode), true) := by
  show deriveTokens kp false (strtok _) (pathStart kp key depth chaincode) = _
  rw [strtok_components h, deriveTokens_components]

end HdNode

/-! ## Derivation by account -/

namespace Bip44

variable (kp : KeyPlatform)

/-- `BIP44_CHANGE_EXTERNAL`. -/
def changeExternal : List Char := ['0']

/-- `BIP44_CHANGE_INTERNAL`. -/
def changeInternal : List Char := ['1']

/-- `SLIP44_KEY_PATH` with the coin type. -/
def coinPath (isTestnet : Bool) : List Char :=
  ['m', '/', '4', '4', '\'', '/'] ++ (if isTestnet then ['1'] else ['3']) ++ ['\'']

/-- The text of the path, before it is cut to the buffer. -/
def keypathText (account addressIndex : Option UInt32) (changeLevel customPath : Option (List Char))
    (isTestnet : Bool) : List Char :=
  let addrIdxStr := (addressIndex.map fun i => Nat.toDigits 10 i.toNat).getD []
  match customPath, account, changeLevel, addressIndex with
  | some path, _, _, _ => path ++ addrIdxStr
  | none, none, _, _ => coinPath isTestnet
  | none, some a, none, _ => coinPath isTestnet ++ '/' :: Nat.toDigits 10 a.toNat ++ ['\'']
  | none, some a, some change, none =>
    coinPath isTestnet ++ '/' :: Nat.toDigits 10 a.toNat ++ '\'' :: '/' :: change
  | none, some a, some change, some i =>
    coinPath isTestnet ++ '/' :: Nat.toDigits 10 a.toNat ++ '\'' :: '/' :: change ++
      '/' :: Nat.toDigits 10 i.toNat

/-- `derive_bip44_extended_key` : the key, or nothing where it returns -1. `snprintf` leaves room
for 254 characters of a path. -/
def deriveBip44ExtendedKey (masterKey : HdNode) (account addressIndex : Option UInt32)
    (changeLevel customPath : Option (List Char)) (isTestnet : Bool) (bip44Key : HdNode) :
    Option HdNode :=
  if ∃ change ∈ changeLevel, change ≠ changeExternal ∧ change ≠ changeInternal then none
  else
    let keypath := (keypathText account addressIndex changeLevel customPath isTestnet).take 254
    match HdNode.hdGenerateKey kp bip44Key keypath masterKey.privateKey masterKey.depth
        masterKey.chainCode false with
    | (key, true) => some key
    | (_, false) => none

/-- The child numbers on the way to an address. -/
def addressPath (account index : UInt32) (change : Bool) : List UInt32 :=
  [44 ||| 0x80000000, 3 ||| 0x80000000, account ||| 0x80000000, if change then 1 else 0, index]

variable {kp}

/-- The components of the paths of `bip44.c` that are the same in all of them. -/
theorem component_fixed : HdNode.component 44 true = ['4', '4', '\''] ∧
    HdNode.component 3 true = ['3', '\''] ∧
    HdNode.component 1 true = ['1', '\''] ∧ HdNode.component 0 false = ['0'] ∧
    HdNode.component 1 false = ['1'] := by
  decide

theorem component_hardened (n : UInt32) :
    HdNode.component n true = Nat.toDigits 10 n.toNat ++ ['\''] := rfl

theorem component_plain (n : UInt32) : HdNode.component n false = Nat.toDigits 10 n.toNat :=
  List.append_nil _

/-- The coin type in the paths of `bip44.c`. -/
def coinType (isTestnet : Bool) : UInt32 := if isTestnet then 1 else 3

/-- The components on the way to an account. -/
def accountComponents (coin account : UInt32) : List (UInt32 × Bool) :=
  [(44, true), (coin, true), (account, true)]

/-- The components from an account to an address. -/
def addressComponents (change : Bool) (index : UInt32) : List (UInt32 × Bool) :=
  [(if change then 1 else 0, false), (index, false)]

/-- The child numbers of components. -/
def childNumbers (cs : List (UInt32 × Bool)) :
    List UInt32 := cs.map fun c => HdNode.childNumber c.1 c.2

/-- The text of a change level. -/
def changeText (change : Bool) : List Char := if change then changeInternal else changeExternal

theorem components_ne_nil (coin account : UInt32) (change : Bool) (index : UInt32) :
    accountComponents coin account ++ addressComponents change index ≠ [] := List.cons_ne_nil _ _

/-- The text of an address's path lists its components. -/
theorem keypathText_address (account index : UInt32) (change isTestnet : Bool) :
    keypathText (some account) (some index) (some (changeText change)) none isTestnet =
      HdNode.keyPath (accountComponents (coinType isTestnet) account ++
        addressComponents change index) := by
  obtain ⟨h44, h3, h1, hzero, hone⟩ := component_fixed
  cases isTestnet <;> cases change <;>
    simp [keypathText, coinPath, coinType, accountComponents, addressComponents, changeText,
      HdNode.keyPath, h44,
      h3, h1, hzero, hone, component_hardened account, component_plain index,
        changeExternal, changeInternal,
      List.intercalate, List.intersperse]

theorem length_toDigits_le (n : UInt32) : (Nat.toDigits 10 n.toNat).length ≤ 10 :=
  (Nat.length_toDigits_le_iff (by decide) (by decide)).mpr (lt_of_lt_of_le n.toNat_lt (by decide))

@[simp] theorem length_coinPath (isTestnet : Bool) : (coinPath isTestnet).length = 8 := by
  cases isTestnet with
  | false => rfl
  | true => rfl

@[simp] theorem length_changeText (change : Bool) : (changeText change).length = 1 := by
  cases change with
  | false => rfl
  | true => rfl

/-- The path of an address has room in the buffer of a path. -/
theorem length_keypathText_address (account index : UInt32) (change isTestnet : Bool) :
    (keypathText (some account) (some index) (some (changeText change)) none isTestnet).length ≤
    254 := by
  have ha := length_toDigits_le account
  have hi := length_toDigits_le index
  simp only [keypathText, List.length_append, List.length_cons, length_changeText, length_coinPath]
  omega

theorem changeText_valid (change : Bool) :
    ∀ level ∈ some (changeText change), level = changeExternal ∨ level = changeInternal := by
  intro level hmem
  obtain rfl := Option.some.inj hmem
  cases change with
  | false => exact Or.inl rfl
  | true => exact Or.inr rfl

/-- `derive_bip44_extended_key` along a path that it writes out in full. -/
theorem deriveBip44ExtendedKey_keyPath {masterKey bip44Key : HdNode}
    {account addressIndex : Option UInt32} {changeLevel : Option (List Char)} {isTestnet : Bool}
    {cs : List (UInt32 × Bool)} (hcs : cs ≠ [])
    (hlevel : ∀ level ∈ changeLevel, level = changeExternal ∨ level = changeInternal)
    (htext : keypathText account addressIndex changeLevel none isTestnet = HdNode.keyPath cs)
    (hlen : (keypathText account addressIndex changeLevel none isTestnet).length ≤ 254) :
    deriveBip44ExtendedKey kp masterKey account addressIndex changeLevel none isTestnet bip44Key =
      some ((childNumbers cs).foldl (HdNode.privateCkd kp)
        (HdNode.pathStart kp masterKey.privateKey masterKey.depth masterKey.chainCode)) := by
  have hok : ¬ ∃ change ∈ changeLevel, change ≠ changeExternal ∧ change ≠ changeInternal := by
    rintro ⟨level, hmem, hext, hint⟩
    rcases hlevel level hmem with h | h
    · exact hext h
    · exact hint h
  unfold deriveBip44ExtendedKey
  rw [if_neg hok]
  dsimp only
  rw [List.take_of_length_le hlen, htext, HdNode.hdGenerateKey_keyPath hcs]
  rfl

/-- **The key of an address.** -/
theorem deriveBip44ExtendedKey_eq (masterKey bip44Key : HdNode) (account index : UInt32)
    (change : Bool) :
    deriveBip44ExtendedKey kp masterKey (some account) (some index)
      (some (if change then changeInternal else changeExternal)) none false bip44Key =
      some ((addressPath account index change).foldl (HdNode.privateCkd kp)
        (HdNode.pathStart kp masterKey.privateKey masterKey.depth masterKey.chainCode)) :=
  deriveBip44ExtendedKey_keyPath (components_ne_nil 3 account change index)
    (changeText_valid change) (keypathText_address account index change false)
      (length_keypathText_address account index change false)

end Bip44

end Libdogecoin
