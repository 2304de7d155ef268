/-
# The grammar of key paths

A key path is an `m` and components behind slashes, each with a number below 2^31 and perhaps the
mark of a hardened child. `dogecoin_hd_generate_key` takes it apart with `strtok_r`, a loop over
characters and `strtoull`, which let more through: components that are empty or have a mark only,
and larger numbers.

* `pathIndices_of_keyPath` : the child numbers of a path that follows the grammar;
* `exists_tokenIndex_iff` : which components are taken;
* `hdGenerateKey_grammar_iff` : the paths that are derived as the grammar says.
-/
import Libdogecoin.HdReturn

namespace Libdogecoin

namespace HdNode

/-- The number that digits spell. -/
def digitsValue (ds : List Char) : ℕ := Nat.ofDigitChars 10 ds 0

/-- A component of a path and its child number: the number, and 2^31 more if it is marked. -/
inductive Component (usepubckd : Bool) : List Char → UInt32 → Prop
  | plain {ds : List Char} (hne : ds ≠ []) (hds : ∀ c ∈ ds,
      c ∈ digits) (hlt : digitsValue ds < 2 ^ 31) :
      Component usepubckd ds (UInt32.ofNat (digitsValue ds))
  | marked {ds : List Char} {mark : Char} (hne : ds ≠ []) (hds : ∀ c ∈ ds, c ∈ digits)
      (hlt : digitsValue ds < 2 ^ 31) (hmark : mark ∈ primes) (hpriv : usepubckd = false) :
      Component usepubckd (ds ++ [mark]) (UInt32.ofNat (digitsValue ds + 2 ^ 31))

/-- A path and its child numbers: an `m` and at least one component, each behind a slash. -/
def KeyPath (usepubckd : Bool) (keypath : List Char) (is : List UInt32) : Prop :=
  ∃ components : List (List Char), components ≠ [] ∧
    keypath = 'm' :: components.flatMap ('/' :: ·) ∧
    List.Forall₂ (Component usepubckd) components is

/-- What lets a component through: digits, which may be missing, and perhaps a mark, and a number
below 2^32. Where public keys are derived there is no mark and the number is below 2^31. -/
def Taken (usepubckd : Bool) (component : List Char) : Prop :=
  ∃ ds : List Char, (∀ c ∈ ds, c ∈ digits) ∧ digitsValue ds < 2 ^ 32 ∧
    (component = ds ∧ (usepubckd = true → digitsValue ds < 2 ^ 31) ∨
      usepubckd = false ∧ ∃ mark ∈ primes, component = ds ++ [mark])

/-- A path is refused for its start or for a component, or all its components follow the grammar. -/
def PathSafe (usepubckd : Bool) (keypath : List Char) : Prop :=
  ∀ path, keypath = 'm' :: '/' :: path →
    (∃ component ∈ path.splitOn '/', ¬ Taken usepubckd component) ∨
      ∀ component ∈ path.splitOn '/', ∃ i, Component usepubckd component i

variable {usepubckd : Bool} {components : List (List Char)} {keypath : List Char}

/-! ## Tokens -/

variable {mark : Char} {ds token : List Char} {i : UInt32} {is : List UInt32}

/-- A mark is no digit. -/
theorem notMem_digits (hmark : mark ∈ primes) : mark ∉ digits := fun hdigit =>
  notMem_primes hdigit hmark

theorem scanToken_marked (hds : ∀ c ∈ ds, c ∈ digits) (hmark : mark ∈ primes) :
    scanToken usepubckd (ds ++ [mark]) = if usepubckd then none else some true := by
  induction ds with
  | nil =>
    rw [List.nil_append, scanToken, if_pos hmark]
    cases usepubckd <;> rfl
  | cons c ds ih =>
    obtain ⟨hc, hds⟩ := List.forall_mem_cons.mp hds
    rw [List.cons_append, scanToken, if_neg (notMem_primes hc), if_pos hc, ih hds]

/-- **The loop over the characters** passes digits, and a mark at the end. -/
theorem scanToken_eq_some {prm : Bool} (h : scanToken usepubckd token = some prm) :
    ∃ ds : List Char, (∀ c ∈ ds, c ∈ digits) ∧
      (prm = false ∧ token = ds ∨ prm = true ∧ usepubckd = false ∧ ∃ mark ∈ primes,
        token = ds ++ [mark]) := by
  induction token with
  | nil => exact ⟨[], fun c hc => absurd hc List.not_mem_nil,
      Or.inl ⟨(Option.some.inj h).symm, rfl⟩⟩
  | cons c rest ih =>
    rw [scanToken] at h
    by_cases hmark : c ∈ primes
    · rw [if_pos hmark] at h
      split at h
      · cases h
      rename_i hlast
      simp only [ne_eq, not_or, not_not, Bool.not_eq_true] at hlast
      obtain ⟨rfl, hpriv⟩ := hlast
      exact ⟨[], fun c hc => absurd hc List.not_mem_nil,
        Or.inr ⟨(Option.some.inj h).symm, hpriv, c, hmark, rfl⟩⟩
    · rw [if_neg hmark] at h
      by_cases hdigit : c ∈ digits
      · rw [if_pos hdigit] at h
        obtain ⟨ds, hds, hrest⟩ := ih h
        refine ⟨c :: ds, List.forall_mem_cons.mpr ⟨hdigit, hds⟩, ?_⟩
        rcases hrest with ⟨hprm, rfl⟩ | ⟨hprm, hpriv, mark, hmark, rfl⟩
        · exact Or.inl ⟨hprm, rfl⟩
        · exact Or.inr ⟨hprm, hpriv, mark, hmark, rfl⟩
      · rw [if_neg hdigit] at h
        cases h

/-- The number is read up to what is no digit. -/
theorem strtoull_append {ds rest : List Char} (hds : ∀ c ∈ ds, c ∈ digits)
    (hrest : ∀ c ∈ rest.head?, c ∉ digits) :
    strtoull (ds ++ rest) = min (digitsValue ds) (2 ^ 64 - 1) := by
  have htake : (ds ++ rest).takeWhile (· ∈ digits) = ds := by
    rw [List.takeWhile_append_of_pos fun c hc => decide_eq_true (hds c hc)]
    cases rest with
    | nil => exact List.append_nil ds
    | cons c rest =>
      rw [List.takeWhile_cons_of_neg (by rw [decide_eq_true_eq]; exact hrest c rfl),
        List.append_nil]
  unfold strtoull digitsValue
  rw [htake]

theorem strtoull_digits (hds : ∀ c ∈ ds, c ∈ digits) :
    strtoull ds = min (digitsValue ds) (2 ^ 64 - 1) := by
  have hread := @strtoull_append ds [] hds fun c hc => absurd hc (by simp)
  rwa [List.append_nil] at hread

theorem strtoull_marked (hds : ∀ c ∈ ds, c ∈ digits) (hmark : mark ∈ primes) :
    strtoull (ds ++ [mark]) = min (digitsValue ds) (2 ^ 64 - 1) := by
  apply strtoull_append hds
  intro c hc
  obtain rfl := Option.some.inj hc
  exact notMem_digits hmark

/-- The mark sets the highest bit, which a small number does not have. -/
theorem or_hardened {n : ℕ} (h : n < 2 ^ 31) :
    UInt32.ofNat n ||| 0x80000000 = UInt32.ofNat (n + 2 ^ 31) := by
  apply UInt32.toNat_inj.mp
  rw [UInt32.toNat_or, UInt32.toNat_ofNat_of_lt' (show n < 2 ^ 32 by omega),
    UInt32.toNat_ofNat_of_lt' (show n + 2 ^ 31 < 2 ^ 32 by omega)]
  exact Nat.or_two_pow_eq_add_of_lt h

/-- **A component of the grammar** is read as its child number. -/
theorem tokenIndex_of_component (h : Component usepubckd token i) :
    tokenIndex usepubckd token = some i := by
  unfold tokenIndex
  cases h with
  | plain hne hds hlt =>
    have hsmall : isHardened (UInt32.ofNat (digitsValue token)) = false :=
      isHardened_of_lt (by rw [UInt32.toNat_ofNat_of_lt' (show _ < 2 ^ 32 by omega)]; exact hlt)
    rw [scanToken_of_digits hds, strtoull_digits hds, Nat.min_eq_left (by omega)]
    dsimp only
    rw [if_neg (by omega), if_neg Bool.false_ne_true, hsmall, Bool.and_false,
      if_neg Bool.false_ne_true]
  | marked hne hds hlt hmark hpriv =>
    subst hpriv
    rw [scanToken_marked hds hmark, strtoull_marked hds hmark, Nat.min_eq_left (by omega),
      if_neg Bool.false_ne_true]
    dsimp only
    rw [if_neg (by omega), if_pos rfl, or_hardened hlt]

/-- Whatever has a number is let through. -/
theorem taken_of_tokenIndex (h : tokenIndex usepubckd token = some i) : Taken usepubckd token := by
  unfold tokenIndex at h
  cases hscan : scanToken usepubckd token with
  | none =>
    rw [hscan] at h
    cases h
  | some prm =>
    rw [hscan] at h
    dsimp only at h
    obtain ⟨ds, hds, hcases⟩ := scanToken_eq_some hscan
    rcases hcases with ⟨rfl, rfl⟩ | ⟨rfl, hpriv, mark, hmark, rfl⟩
    · rw [strtoull_digits hds] at h
      split at h
      · cases h
      rename_i hidx
      rw [if_neg Bool.false_ne_true] at h
      split at h
      · cases h
      rename_i hpub
      refine ⟨token, hds, by omega, Or.inl ⟨rfl, ?_⟩⟩
      rintro rfl
      -- a number from 2^31 on is refused by the public derivation
      by_contra hlarge
      rw [Bool.true_and] at hpub
      apply hpub
      apply isHardened_of_ge
      rw [Nat.min_eq_left (by omega), UInt32.toNat_ofNat_of_lt' (show _ < 2 ^ 32 by omega)]
      exact Nat.not_lt.mp hlarge
    · rw [strtoull_marked hds hmark] at h
      split at h
      · cases h
      exact ⟨ds, hds, by omega, Or.inr ⟨hpriv, mark, hmark, rfl⟩⟩

theorem exists_tokenIndex_of_taken (h : Taken usepubckd token) :
    ∃ i, tokenIndex usepubckd token = some i := by
  unfold tokenIndex
  rcases h with ⟨ds, hds, hlt, ⟨rfl, hpub⟩ | ⟨rfl, mark, hmark, rfl⟩⟩
  · rw [scanToken_of_digits hds, strtoull_digits hds, Nat.min_eq_left (by omega)]
    dsimp only
    rw [if_neg (by omega), if_neg Bool.false_ne_true]
    cases usepubckd with
    | false => exact ⟨_, rfl⟩
    | true =>
      have hsmall : isHardened (UInt32.ofNat (digitsValue token)) = false :=
        isHardened_of_lt (by rw [UInt32.toNat_ofNat_of_lt' hlt]; exact hpub rfl)
      rw [hsmall]
      exact ⟨_, rfl⟩
  · rw [scanToken_marked hds hmark, strtoull_marked hds hmark, Nat.min_eq_left (by omega),
      if_neg Bool.false_ne_true]
    dsimp only
    rw [if_neg (by omega), if_pos rfl]
    exact ⟨_, rfl⟩

/-- **The components that are taken.** -/
theorem exists_tokenIndex_iff (token : List Char) :
    (∃ i, tokenIndex usepubckd token = some i) ↔ Taken usepubckd token := by
  refine ⟨?_, exists_tokenIndex_of_taken⟩
  rintro ⟨i, h⟩
  exact taken_of_tokenIndex h

/-! ## Paths -/

/-- Every token has a number if they have numbers one by one. -/
theorem mapM_of_forall₂ {tokens : List (List Char)}
    (h : List.Forall₂ (Component usepubckd) tokens is) :
    tokens.mapM (tokenIndex usepubckd) = some is := by
  induction h with
  | nil => rfl
  | cons hfirst _ ih =>
    rw [List.mapM_cons, tokenIndex_of_component hfirst, ih]
    rfl

theorem exists_mapM_iff (tokens : List (List Char)) :
    (∃ is, tokens.mapM (tokenIndex usepubckd) = some is) ↔ ∀ token ∈ tokens,
      Taken usepubckd token := by
  induction tokens with
  | nil => exact iff_of_true ⟨[], rfl⟩ fun token htoken => absurd htoken List.not_mem_nil
  | cons token tokens ih =>
    rw [List.forall_mem_cons, ← ih, ← exists_tokenIndex_iff, List.mapM_cons]
    constructor
    · rintro ⟨is, h⟩
      obtain ⟨i, hi, h⟩ := Option.bind_eq_some_iff.mp h
      obtain ⟨is', his, -⟩ := Option.bind_eq_some_iff.mp h
      exact ⟨⟨i, hi⟩, is', his⟩
    · rintro ⟨⟨i, hi⟩, is, his⟩
      rw [hi, his]
      exact ⟨i :: is, rfl⟩

/-- An empty component is taken; `strtok_r` skips it. -/
theorem taken_nil : Taken usepubckd [] :=
  ⟨[], fun c hc => absurd hc List.not_mem_nil, by decide, Or.inl ⟨rfl, fun _ => by decide⟩⟩

/-- **A path has child numbers** if all its components are taken. -/
theorem exists_pathIndices_iff (path : List Char) :
    (∃ is, pathIndices usepubckd ('m' :: '/' :: path) = some is) ↔
      ∀ component ∈ path.splitOn '/', Taken usepubckd component := by
  show (∃ is, (strtok path).mapM (tokenIndex usepubckd) = some is) ↔ _
  rw [exists_mapM_iff]
  unfold strtok
  constructor
  · intro h component hmem
    by_cases hnil : component = []
    · rw [hnil]
      exact taken_nil
    · exact h component (List.mem_filter.mpr ⟨hmem, decide_eq_true hnil⟩)
  · intro h token hmem
    exact h token (List.mem_filter.mp hmem).1

/-- A component of the grammar is not empty and has no slash. -/
theorem Component.ne_nil {component : List Char} (h : Component usepubckd component i) :
    component ≠ [] ∧ '/' ∉ component := by
  cases h with
  | plain hne hds hlt => exact ⟨hne, fun hslash => absurd (hds _ hslash) (by decide)⟩
  | marked hne hds hlt hmark hpriv =>
    refine ⟨by simp, ?_⟩
    intro hslash
    rcases List.mem_append.mp hslash with hslash | hslash
    · exact absurd (hds _ hslash) (by decide)
    · obtain rfl := List.mem_singleton.mp hslash
      exact absurd hmark (by decide)

/-- A component in a list that follows the grammar has a number there. -/
theorem exists_of_mem_left (h : List.Forall₂ (Component usepubckd) components is) :
    ∀ component ∈ components, ∃ i, Component usepubckd component i := by
  induction h with
  | nil => exact fun component hmem => absurd hmem List.not_mem_nil
  | cons hfirst _ ih => exact List.forall_mem_cons.mpr ⟨⟨_, hfirst⟩, ih⟩

theorem exists_forall₂ (h : ∀ component ∈ components, ∃ i, Component usepubckd component i) :
    ∃ is, List.Forall₂ (Component usepubckd) components is := by
  induction components with
  | nil => exact ⟨[], List.Forall₂.nil⟩
  | cons component components ih =>
    obtain ⟨⟨i, hi⟩, hrest⟩ := List.forall_mem_cons.mp h
    obtain ⟨is, his⟩ := ih hrest
    exact ⟨i :: is, List.Forall₂.cons hi his⟩

/-- Components behind slashes are components with slashes between them. -/
theorem flatMap_slash (component : List Char) (components : List (List Char)) :
    (component :: components).flatMap ('/' :: ·) = '/' :: ['/'].intercalate
    (component :: components) := by
  induction components generalizing component with
  | nil => simp
  | cons next components ih =>
    rw [List.flatMap_cons, ih, List.intercalate_cons_cons]
    simp

/-- **A path that follows the grammar** starts with an `m` and a slash, and is split into its
components. -/
theorem keyPath_iff :
    KeyPath usepubckd keypath is ↔
      ∃ path, keypath = 'm' :: '/' :: path ∧
      List.Forall₂ (Component usepubckd) (path.splitOn '/') is := by
  constructor
  · rintro ⟨components, hne, rfl, hall⟩
    obtain ⟨component, rest, rfl⟩ := List.exists_cons_of_ne_nil hne
    refine ⟨['/'].intercalate (component :: rest), by rw [flatMap_slash], ?_⟩
    rw [List.splitOn_intercalate '/' _ hne]
    · exact hall
    · intro l hl
      obtain ⟨i, hi⟩ := exists_of_mem_left hall l hl
      exact hi.ne_nil.2
  · rintro ⟨path, rfl, hall⟩
    have hne : path.splitOn '/' ≠ [] := List.splitOn_ne_nil '/' path
    refine ⟨path.splitOn '/', hne, ?_, hall⟩
    obtain ⟨component, rest, hsplit⟩ := List.exists_cons_of_ne_nil hne
    rw [hsplit, flatMap_slash, ← hsplit, List.intercalate_splitOn]

/-- **The child numbers** of a path that follows the grammar. -/
theorem pathIndices_of_keyPath (h : KeyPath usepubckd keypath is) :
    pathIndices usepubckd keypath = some is := by
  obtain ⟨path, rfl, hall⟩ := keyPath_iff.mp h
  have hfilter : (path.splitOn '/').filter (· ≠ []) = path.splitOn '/' := by
    rw [List.filter_eq_self]
    intro component hmem
    obtain ⟨i, hi⟩ := exists_of_mem_left hall component hmem
    exact decide_eq_true hi.ne_nil.1
  show (strtok path).mapM (tokenIndex usepubckd) = some is
  unfold strtok
  rw [hfilter]
  exact mapM_of_forall₂ hall

/-- **Key paths.** A path is derived just if it follows the grammar, and along its child numbers, if
and only if it is safe. -/
theorem hdGenerateKey_grammar_iff (kp : KeyPlatform) (node : HdNode) (keypath : List Char)
    (keymaster : Bytes) (depth : UInt32) (chaincode : Bytes) (usepubckd : Bool) :
    (∀ child, hdGenerateKey kp node keypath keymaster depth chaincode usepubckd = (child, true) ↔
        ∃ is, KeyPath usepubckd keypath is ∧
          is.foldl (stepNode kp usepubckd) (startNode kp node keymaster depth chaincode usepubckd) =
            child) ↔
      PathSafe usepubckd keypath := by
  constructor
  · rintro hgrammar path rfl
    by_cases htaken : ∀ component ∈ path.splitOn '/', Taken usepubckd component
    · obtain ⟨is, his⟩ := (exists_pathIndices_iff path).mpr htaken
      have hderived := (@hdGenerateKey_eq_true_iff kp usepubckd node _ _ keymaster
        depth chaincode).mpr ⟨is, his, rfl⟩
      obtain ⟨is', hpath, -⟩ := (hgrammar _).mp hderived
      obtain ⟨path', heq, hall⟩ := keyPath_iff.mp hpath
      obtain rfl : path = path' := by simpa using heq
      exact Or.inr (exists_of_mem_left hall)
    · simp only [not_forall] at htaken
      obtain ⟨component, hmem, hnot⟩ := htaken
      exact Or.inl ⟨component, hmem, hnot⟩
  · intro hsafe child
    rw [hdGenerateKey_eq_true_iff]
    constructor
    · rintro ⟨is, his, hchild⟩
      -- a path with child numbers starts as it should, and its components are taken
      obtain ⟨path, rfl⟩ : ∃ path, keypath = 'm' :: '/' :: path := by
        unfold pathIndices at his
        split at his
        · next path => exact ⟨path, rfl⟩
        · cases his
      have htaken := (exists_pathIndices_iff path).mp ⟨is, his⟩
      rcases hsafe path rfl with ⟨component, hmem, hnot⟩ | hall
      · exact absurd (htaken component hmem) hnot
      · obtain ⟨is', hforall⟩ := exists_forall₂ hall
        have hpath : KeyPath usepubckd ('m' :: '/' :: path) is' :=
          keyPath_iff.mpr ⟨path, rfl, hforall⟩
        have hsame := pathIndices_of_keyPath hpath
        rw [his] at hsame
        obtain rfl := Option.some.inj hsame
        exact ⟨is, hpath, hchild⟩
    · rintro ⟨is, hpath, hchild⟩
      exact ⟨is, pathIndices_of_keyPath hpath, hchild⟩

/-- The number 2^31 without a mark derives the hardened child 0. -/
theorem not_hdGenerateKey_grammar : ¬ ∀ (kp : KeyPlatform) (node : HdNode) (keypath : List Char)
    (keymaster : Bytes) (depth : UInt32) (chaincode : Bytes) (usepubckd : Bool),
    keypath.length < 1024 →
      ∀ child, hdGenerateKey kp node keypath keymaster depth chaincode usepubckd = (child, true) ↔
        ∃ is, KeyPath usepubckd keypath is ∧
          is.foldl (stepNode kp usepubckd) (startNode kp node keymaster depth chaincode usepubckd) =
            child := by
  intro hall
  have hindices : pathIndices false "m/2147483648".toList = some [0x80000000] := by decide
  have hderived := (@hdGenerateKey_eq_true_iff sampleKeys false sampleNode _ _
    sampleNode.privateKey 0 sampleNode.chainCode).mpr ⟨_, hindices, rfl⟩
  obtain ⟨is, hpath, -⟩ := (hall sampleKeys sampleNode "m/2147483648".toList sampleNode.privateKey 0
    sampleNode.chainCode false (by decide) _).mp hderived
  obtain ⟨path, heq, hcomponents⟩ := keyPath_iff.mp hpath
  obtain rfl : "2147483648".toList = path := by simpa using heq
  obtain ⟨i, hi⟩ := exists_of_mem_left hcomponents "2147483648".toList (by decide)
  generalize hds : "2147483648".toList = component at hi
  cases hi with
  | plain hne hdigits hlt =>
    rw [← hds] at hlt
    revert hlt
    decide
  | marked hne hdigits hlt hmark hpriv =>
    have hlast := congrArg List.getLast? hds
    rw [List.getLast?_concat] at hlast
    obtain rfl : '8' = _ := Option.some.inj hlast
    revert hmark
    decide

end HdNode

end Libdogecoin
