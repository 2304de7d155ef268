/-
# The transform of Raccoon-G

`ntt.c` : the number-theoretic transform of polynomials with 256 coefficients modulo `q`, its
inverse, and the product of two transforms.

* `residue_nttForward`, `residue_nttInverse` : the loops are the layers of the negacyclic transform;
* `safe_of_reduced` : the coefficients stay below `q`, and no sum wraps;
* `ntt_product` : the inverse gives a polynomial back, and the product of two.
-/
import Mathlib.Data.ZMod.Basic
import Mathlib.RingTheory.AdjoinRoot
import Libdogecoin.Negacyclic

namespace Libdogecoin

namespace Raccoong

open Polynomial Negacyclic

/-! ## Polynomials -/

/-- `RACCOONG_Q`. -/
def RACCOONG_Q : UInt64 := 562949953438721

/-- `RACCOONG_N`. -/
def RACCOONG_N : ℕ := 256

/-- `RACCOONG_NI`. -/
def RACCOONG_NI : UInt64 := 560750930183101

/-- `RACCOONG_W`. -/
def RACCOONG_W : List UInt64 :=
  [1, 296906434238998, 181781957684384, 191406895362494, 96916284855744, 527770056491899,
    390596018438458, 144417730180852, 343797132273457, 536922258790245,
    433569942776299, 72305240403475, 441345718559494, 468611498753924, 558875681544363,
    482537422310465, 215497411143094, 467415149987830, 219454469693684, 97777236770764,
    478012315927396, 425728544469615, 172120307892393, 72251592568563, 437547177204445,
    340362439625502, 496623572145823, 176373822073846, 30602652245083, 73332893405541,
    237772615036862, 428072708517192, 135948448084008, 401282176971642, 514741044692888,
    249537811936473, 470331420435140, 434078931748102, 352404743643638, 195737947455592,
    434379608476017, 507187753812509, 263346828390015, 374671504552198, 44719881044138,
    184849065156583, 209754917943589, 188761456810925, 279596747062554, 456084299944347,
    230333756607878, 293918424792913, 523070715809650, 388512944219688, 386258909038340,
    438502123127754, 136375741794045, 555857235431026, 13508910611294, 483335714399441,
    377798815075217, 501131695473255, 39076332254779, 427136680714875, 245762989047718,
    433450943117213, 455704413783881, 506148755142929, 130957910506195, 443377888433476,
    221545866880358, 427229297404741, 550855861998066, 540971223035962, 137617862180852,
    175372814902870, 13975467385753, 24965657230597, 522436305816199, 374327376745901,
    544920610901674, 326268776923754, 276693455910792, 142619409869871, 313644087070365,
    274900382211365, 280350971755833, 519243703332558, 129232637389137, 246030940334002,
    46545494674471, 57043433830445, 184925167707926, 469155884095523, 503182856499133,
    23814644835421, 475559647097777, 34073549943749, 316691401824261, 399215566287434,
    539897402266692, 315255324521502, 173125366109746, 124538868681078, 71461040333485,
    73937466223620, 54380101038198, 398747125630441, 448462236563893, 140761532104851,
    178622113504236, 497493031236821, 419081134729643, 60377106249605, 251359295165389,
    347898082741553, 384688472728281, 297054159475731, 93380565089038, 500675344171667,
    284070877540961, 358996607064300, 525976674073262, 260032344045148, 17068528300956,
    269585966230833, 298565133282905, 416568378662712, 171069777926290, 349324998749994,
    259049291682050, 184600346861179, 432246427366052, 288989901132148, 355883147610296,
    256312858090165, 542194995533580, 408452938138445, 373445388319357, 274193355487517,
    79550316493975, 233882663516073, 181989055589022, 121703131609392, 107234486079216,
    550464159571222, 458592507839679, 352024591642451, 266690484267974, 496941637675982,
    438380120748369, 397572140302510, 58181436514136, 486719248706067, 206536278983011,
    180604527078985, 478670103441868, 26251809161300, 150600676894001, 276367279114637,
    56399468039126, 436508531710035, 249137198966024, 34372922093606, 427906659988979,
    4592833677263, 433888507899784, 134098906412161, 369334384396631, 298728342283482,
    424473914662438, 527464202413984, 341271781778061, 81081214712098, 369307190539312,
    526658785439601, 324042382005955, 291578765791809, 319083982706637, 278133882827943,
    218112738633496, 261726605062989, 420615368297607, 184166878949130, 323810824421245,
    192283000615540, 172362130304804, 139132034756151, 138328555557310, 87355951296240,
    425050139960683, 202539666888605, 529612860528803, 3972258931452, 95747869031130,
    134884673824368, 461229474958967, 372614880404995, 75112314349665, 175651329769148,
    531273365329484, 187005993903311, 495191416407645, 283402266119023, 269581130095040,
    410686341484674, 93344412371069, 534690300822244, 268118300630235, 256200697475194,
    87921460884356, 292205602599711, 141523556695052, 333262844005394, 417784557684255,
    130861630039851, 440797410820196, 155010276897247, 236872209573035, 311715275406078,
    340915559899885, 405291498688271, 404035139068240, 141329712471110, 354314985867238,
    449882612326041, 334944106229028, 193118827534695, 534175344893290, 454473183423671,
    142830197859598, 262685363539882, 27346571217940, 241681832106042, 42867263645174,
    183486179335091, 447396338088031, 7318421462452, 192260433830520, 331813242208782,
    498783959776516, 177666180607119, 386442316586840, 9819396035471, 48683959880399,
    93224787374408, 461567322571994, 327753888849199, 419642897253790, 307218422705703,
    534306751173139, 30412449240137, 392781217659613, 15316548626552, 21923346096342,
    320756038422460]

/-- `polyr` : the coefficients. -/
abbrev Polyr := {coeffs : List UInt64 // coeffs.length = 256}

namespace Polyr

/-- The coefficient at an index. -/
def get (f : Polyr) (k : ℕ) : UInt64 := f.1.getD k 0

/-- The polynomial with another coefficient at an index. -/
def set (f : Polyr) (k : ℕ) (c : UInt64) : Polyr := ⟨f.1.set k c, by rw [List.length_set, f.2]⟩

/-- The polynomial with a function applied to each coefficient. -/
def map (g : UInt64 → UInt64) (f : Polyr) : Polyr := ⟨f.1.map g, by rw [List.length_map, f.2]⟩

/-- The polynomial with a function applied to each two coefficients. -/
def zipWith (g : UInt64 → UInt64 → UInt64) (a b : Polyr) : Polyr :=
  ⟨List.zipWith g a.1 b.1, by rw [List.length_zipWith, a.2, b.2]; rfl⟩

end Polyr

/-- `mul_mod_q`. The product has 128 bits. -/
def mulModQ (a b : UInt64) : UInt64 := UInt64.ofNat (a.toNat * b.toNat % RACCOONG_Q.toNat)

/-- `add_mod_q`. -/
def addModQ (a b : UInt64) : UInt64 :=
  let s := a + b
  if s ≥ RACCOONG_Q then s - RACCOONG_Q else s

/-- `sub_mod_q`. -/
def subModQ (a b : UInt64) : UInt64 :=
  let s := a + RACCOONG_Q - b
  if s ≥ RACCOONG_Q then s - RACCOONG_Q else s

/-! ## The loops -/

/-- One pass of the innermost loop: `l`, `wi` and `j`. -/
structure Butterfly where
  l : ℕ
  wi : ℕ
  j : ℕ
  deriving DecidableEq

/-- The loops over `i` and `j` of `ntt_forward`, for one `l`. -/
def forwardLayer (l wi : ℕ) : List Butterfly :=
  (List.range (RACCOONG_N / (2 * l))).flatMap fun b =>
    (List.range l).map fun m => { l := l, wi := wi + (b + 1), j := b * (2 * l) + m }

/-- The passes of `ntt_forward` from `l` and `wi` on. -/
def forwardPasses (l wi : ℕ) : List Butterfly :=
  if l > 0 then forwardLayer l wi ++ forwardPasses (l / 2) (wi + RACCOONG_N / (2 * l)) else []
termination_by l

/-- What a pass of `ntt_forward` does. -/
def forwardStep (f : Polyr) (p : Butterfly) : Polyr :=
  let z := RACCOONG_W.getD p.wi 0
  let x := f.get p.j
  let y := mulModQ (f.get (p.j + p.l)) z
  (f.set p.j (addModQ x y)).set (p.j + p.l) (subModQ x y)

/-- `ntt_forward`. -/
def nttForward (r : Polyr) : Polyr := (forwardPasses (RACCOONG_N / 2) 0).foldl forwardStep r

/-- The loops over `i` and `j` of `ntt_inverse`, for one `l`. -/
def inverseLayer (l wi : ℕ) : List Butterfly :=
  (List.range (RACCOONG_N / (2 * l))).flatMap fun b =>
    (List.range l).map fun m => { l := l, wi := wi - (b + 1), j := b * (2 * l) + m }

/-- The passes of `ntt_inverse` from `l` and `wi` on. The length is never 0. -/
def inversePasses (l wi : ℕ) : List Butterfly :=
  if l < RACCOONG_N ∧ 0 < l then inverseLayer l wi ++
    inversePasses (2 * l) (wi - RACCOONG_N / (2 * l)) else []
termination_by RACCOONG_N - l

/-- What a pass of `ntt_inverse` does. -/
def inverseStep (f : Polyr) (p : Butterfly) : Polyr :=
  let z := RACCOONG_W.getD p.wi 0
  let x := f.get p.j
  let y := f.get (p.j + p.l)
  (f.set p.j (addModQ x y)).set (p.j + p.l) (mulModQ z (subModQ y x))

/-- `ntt_inverse`. -/
def nttInverse (r : Polyr) : Polyr := ((inversePasses 1 RACCOONG_N).foldl inverseStep r).map
    (mulModQ RACCOONG_NI)

/-- `ntt_pointwise`. -/
def nttPointwise (a b : Polyr) : Polyr := Polyr.zipWith mulModQ a b

/-! ## Arithmetic modulo q -/

/-- The modulus. -/
def q : ℕ := 562949953438721

theorem toNat_Q : RACCOONG_Q.toNat = q := rfl

instance : NeZero q := ⟨by decide⟩

/-- Every coefficient is below the modulus. -/
def Reduced (f : Polyr) : Prop := ∀ c ∈ f.1, c.toNat < q

/-- The residue of a coefficient. -/
def residue (f : Polyr) (k : ℕ) : ZMod q := (f.get k).toNat

theorem toNat_mulModQ (a b : UInt64) : (mulModQ a b).toNat = a.toNat * b.toNat % q := by
  have hlt : a.toNat * b.toNat % q < q := Nat.mod_lt _ (by decide)
  have hq : q < 2 ^ 64 := by decide
  exact UInt64.toNat_ofNat_of_lt' (show _ < 2 ^ 64 from hlt.trans hq)

variable {a b c : UInt64} {n k l m s r : ℕ} {f : Polyr} {x : ℕ → ZMod q}

/-- The sums do not wrap, and the result is reduced. -/
theorem toNat_addModQ (ha : a.toNat < q) (hb : b.toNat < q) :
    (addModQ a b).toNat = if a.toNat + b.toNat ≥ q then a.toNat + b.toNat - q else
    a.toNat + b.toNat := by
  have hq : q = 562949953438721 := rfl
  have hs : (a + b).toNat = a.toNat + b.toNat := by
    rw [UInt64.toNat_add]
    omega
  unfold addModQ
  dsimp only
  by_cases h : a + b ≥ RACCOONG_Q
  · have hle : q ≤ a.toNat + b.toNat := by rwa [ge_iff_le, UInt64.le_iff_toNat_le, hs, toNat_Q] at h
    rw [if_pos h, if_pos hle, UInt64.toNat_sub_of_le _ _ h, hs, toNat_Q]
  · have hlt : ¬ q ≤ a.toNat + b.toNat := by
      rwa [ge_iff_le, UInt64.le_iff_toNat_le, hs, toNat_Q] at h
    rw [if_neg h, if_neg hlt, hs]

theorem toNat_subModQ (ha : a.toNat < q) (hb : b.toNat < q) :
    (subModQ a b).toNat =
      if a.toNat + q - b.toNat ≥ q then a.toNat + q - b.toNat - q else a.toNat + q - b.toNat := by
  have hq : q = 562949953438721 := rfl
  have hsum : (a + RACCOONG_Q).toNat = a.toNat + q := by
    rw [UInt64.toNat_add, toNat_Q]
    omega
  have hs : (a + RACCOONG_Q - b).toNat = a.toNat + q - b.toNat := by
    rw [UInt64.toNat_sub_of_le, hsum]
    rw [UInt64.le_iff_toNat_le, hsum]
    omega
  unfold subModQ
  dsimp only
  by_cases h : a + RACCOONG_Q - b ≥ RACCOONG_Q
  · have hle : q ≤ a.toNat + q -
      b.toNat := by rwa [ge_iff_le, UInt64.le_iff_toNat_le, hs, toNat_Q] at h
    rw [if_pos h, if_pos hle, UInt64.toNat_sub_of_le _ _ h, hs, toNat_Q]
  · have hlt : ¬ q ≤ a.toNat + q -
      b.toNat := by rwa [ge_iff_le, UInt64.le_iff_toNat_le, hs, toNat_Q] at h
    rw [if_neg h, if_neg hlt, hs]

theorem mulModQ_lt (a b : UInt64) : (mulModQ a b).toNat < q := by
  rw [toNat_mulModQ]
  exact Nat.mod_lt _ (by decide)

theorem addModQ_lt (ha : a.toNat < q) (hb : b.toNat < q) : (addModQ a b).toNat < q := by
  rw [toNat_addModQ ha hb]
  split <;> omega

theorem subModQ_lt (ha : a.toNat < q) (hb : b.toNat < q) : (subModQ a b).toNat < q := by
  rw [toNat_subModQ ha hb]
  split <;> omega

theorem cast_mulModQ (a b : UInt64) : ((mulModQ a b).toNat : ZMod q) = a.toNat * b.toNat := by
  rw [toNat_mulModQ, ZMod.natCast_mod, Nat.cast_mul]

theorem cast_addModQ (ha : a.toNat < q) (hb : b.toNat < q) :
    ((addModQ a b).toNat : ZMod q) = a.toNat + b.toNat := by
  rw [toNat_addModQ ha hb]
  split
  · rw [Nat.cast_sub (by omega), ZMod.natCast_self, sub_zero, Nat.cast_add]
  · rw [Nat.cast_add]

theorem cast_subModQ (ha : a.toNat < q) (hb : b.toNat < q) :
    ((subModQ a b).toNat : ZMod q) = a.toNat - b.toNat := by
  have hle : b.toNat ≤ a.toNat + q := by omega
  rw [toNat_subModQ ha hb]
  split
  · rw [Nat.cast_sub (by omega), Nat.cast_sub hle, ZMod.natCast_self, sub_zero, Nat.cast_add,
      ZMod.natCast_self, add_zero]
  · rw [Nat.cast_sub hle, Nat.cast_add, ZMod.natCast_self, add_zero]

/-! ## The table -/

/-- The residue of an entry of the table. -/
def root (i : ℕ) : ZMod q := (RACCOONG_W.getD i 0).toNat

theorem table_lt : ∀ z ∈ RACCOONG_W, z.toNat < q := by
  have h : RACCOONG_W.all (fun z => decide (z.toNat < q)) = true := by decide +kernel
  intro z hz
  exact of_decide_eq_true (List.all_eq_true.mp h z hz)

/-- The squares of the entries, up to the sign that an odd index has. -/
theorem table_sq : ∀ i < 256, 0 < i → (RACCOONG_W.getD i 0).toNat ^ 2 % q =
    (if i = 1 then q - 1 else if i % 2 = 0 then (RACCOONG_W.getD (i / 2) 0).toNat
      else q - (RACCOONG_W.getD (i / 2) 0).toNat) := by
  decide +kernel

/-- The entries of a layer in the opposite order are the negated inverses. -/
theorem table_inverse : ∀ t < 8, ∀ b < 2 ^ t,
    (RACCOONG_W.getD (2 ^ t + b) 0).toNat * (RACCOONG_W.getD (2 * 2 ^ t - 1 - b) 0).toNat % q =
    q - 1 := by
  decide +kernel

theorem getD_table_lt (i : ℕ) : (RACCOONG_W.getD i 0).toNat < q := by
  rw [List.getD_eq_getElem?_getD]
  cases h : RACCOONG_W[i]? with
  | none => exact NeZero.pos q
  | some z => exact table_lt z (List.mem_of_getElem? h)

theorem cast_sub_self (h : n ≤ q) : ((q - n : ℕ) : ZMod q) = -(n : ZMod q) := by
  rw [Nat.cast_sub h, ZMod.natCast_self, zero_sub]

theorem root_sq : ∀ i, 0 < i → i < 256 → root i ^ 2 = square root i := by
  intro i hpos hlt
  have h := congrArg (Nat.cast (R := ZMod q)) (table_sq i hlt hpos)
  rw [ZMod.natCast_mod, Nat.cast_pow] at h
  rw [root, h, square]
  split
  · rw [cast_sub_self (NeZero.pos q), Nat.cast_one]
  · split
    · rfl
    · exact cast_sub_self (getD_table_lt _).le

theorem root_inverse : ∀ t < 8, ∀ b < 2 ^ t, root (2 ^ t + b) * root (2 * 2 ^ t - 1 - b) = -1 := by
  intro t ht b hb
  have h := congrArg (Nat.cast (R := ZMod q)) (table_inverse t ht b hb)
  rw [ZMod.natCast_mod, Nat.cast_mul, cast_sub_self (NeZero.pos q), Nat.cast_one] at h
  exact h

/-! ## The passes -/

theorem Reduced.get_lt (h : Reduced f) (k : ℕ) : (f.get k).toNat < q := by
  rw [Polyr.get, List.getD_eq_getElem?_getD]
  cases hget : f.1[k]? with
  | none => exact NeZero.pos q
  | some c => exact h c (List.mem_of_getElem? hget)

theorem Reduced.set (h : Reduced f) (k : ℕ) (hc : c.toNat < q) : Reduced (f.set k c) := by
  intro x hx
  rcases List.mem_or_eq_of_mem_set hx with hmem | rfl
  · exact h x hmem
  · exact hc

theorem get_set_self (f : Polyr) (hk : k < 256) (c : UInt64) : (f.set k c).get k = c := by
  rw [Polyr.get, Polyr.set, List.getD_eq_getElem?_getD,
    List.getElem?_set_self (by rw [f.2]; exact hk)]
  rfl

theorem get_set_of_ne (f : Polyr) {k' : ℕ} (h : k ≠ k') (c : UInt64) :
    (f.set k c).get k' = f.get k' := by
  rw [Polyr.get, Polyr.set, List.getD_eq_getElem?_getD, List.getElem?_set_ne h,
    ← List.getD_eq_getElem?_getD, Polyr.get]

/-- Two coefficients are replaced, and the others stay. -/
theorem changesPair_set {b : ℕ} {lo hi : ℕ → ZMod q → ZMod q → ZMod q} (hf : Reduced f) (hl : 0 < l)
    (hlt : b * (2 * l) + m + l < 256) {u v : UInt64} (hu : u.toNat < q) (hv : v.toNat < q)
    (hlo : (u.toNat : ZMod q) = lo b (residue f (b * (2 * l) + m))
      (residue f (b * (2 * l) + m + l)))
    (hhi : (v.toNat : ZMod q) = hi b (residue f (b * (2 * l) + m))
      (residue f (b * (2 * l) + m + l))) :
    ChangesPair residue Reduced l lo hi b m f
      ((f.set (b * (2 * l) + m) u).set (b * (2 * l) + m + l) v) := by
  have hlower : 2 * b * l + m = b * (2 * l) + m := by ring
  have hupper : (2 * b + 1) * l + m = b * (2 * l) + m + l := by ring
  refine ⟨(hf.set _ hu).set _ hv, ?_, ?_, ?_⟩
  · rw [hlower, hupper, residue, get_set_of_ne _ (by omega), get_set_self _ (by omega), hlo]
  · rw [hlower, hupper, residue, get_set_self _ hlt, hhi]
  · intro k hklo hkhi
    rw [hlower] at hklo
    rw [hupper] at hkhi
    rw [residue, get_set_of_ne _ hkhi.symm, get_set_of_ne _ hklo.symm, residue]

theorem pos_of_mul_eq (h : n * m = 256) : 0 < n := by
  rcases Nat.eq_zero_or_pos n with rfl | hpos
  · omega
  · exact hpos

theorem div_of_mul_eq (h : n * m = 256) : RACCOONG_N / m = n := by
  have hm := pos_of_mul_eq (by rwa [Nat.mul_comm] at h : m * n = 256)
  rw [RACCOONG_N, ← h, Nat.mul_div_cancel _ hm]

/-- The upper coefficient of a pair is one of the polynomial. -/
theorem upper_lt {b : ℕ} (hn : n * (2 * l) = 256) (hb : b < n) (hm : m < l) :
    b * (2 * l) + m + l < 256 := by
  have hblock : (b + 1) * (2 * l) ≤ n * (2 * l) := Nat.mul_le_mul_right _ hb
  rw [hn, Nat.succ_mul] at hblock
  omega

/-- The passes of one layer of `ntt_forward`. -/
theorem foldl_forwardLayer (hl : 0 < l) (hn : n * (2 * l) = 256) (hf : Reduced f)
    (hx : ∀ k < 256, residue f k = x k) :
    Reduced ((forwardLayer l (n - 1)).foldl forwardStep f) ∧
      ∀ k < 256, residue ((forwardLayer l (n - 1)).foldl forwardStep f) k =
        layer l (fun b => root (n + b)) x k := by
  have hpos := pos_of_mul_eq hn
  rw [forwardLayer, div_of_mul_eq hn]
  rw [← hn] at hx ⊢
  apply foldl_pairs (p := fun b m =>
    ({ l := l, wi := n - 1 + (b + 1), j := b * (2 * l) + m } : Butterfly)) hf hx
  intro g hg b hb m hm
  have hlt := upper_lt hn hb hm
  have hx_lt := hg.get_lt (b * (2 * l) + m)
  have hy_lt := mulModQ_lt (g.get (b * (2 * l) + m + l)) (RACCOONG_W.getD (n - 1 + (b + 1)) 0)
  have hindex : n - 1 + (b + 1) = n + b := by omega
  apply changesPair_set hg hl hlt (addModQ_lt hx_lt hy_lt) (subModQ_lt hx_lt hy_lt)
  · rw [cast_addModQ hx_lt hy_lt, cast_mulModQ, hindex]
    rfl
  · rw [cast_subModQ hx_lt hy_lt, cast_mulModQ, hindex]
    rfl

/-- The passes of one layer of `ntt_inverse`. -/
theorem foldl_inverseLayer (hl : 0 < l) (hn : n * (2 * l) = 256) (hf : Reduced f)
    (hx : ∀ k < 256, residue f k = x k) :
    Reduced ((inverseLayer l (2 * n)).foldl inverseStep f) ∧
      ∀ k < 256, residue ((inverseLayer l (2 * n)).foldl inverseStep f) k =
        layerInv l (fun b => root (2 * n - 1 - b)) x k := by
  rw [inverseLayer, div_of_mul_eq hn]
  rw [← hn] at hx ⊢
  apply foldl_pairs (p := fun b m =>
    ({ l := l, wi := 2 * n - (b + 1), j := b * (2 * l) + m } : Butterfly)) hf hx
  intro g hg b hb m hm
  have hlt := upper_lt hn hb hm
  have hx_lt := hg.get_lt (b * (2 * l) + m)
  have hy_lt := hg.get_lt (b * (2 * l) + m + l)
  have hindex : 2 * n - (b + 1) = 2 * n - 1 - b := by omega
  apply changesPair_set hg hl hlt (addModQ_lt hx_lt hy_lt) (mulModQ_lt _ _)
  · rw [cast_addModQ hx_lt hy_lt]
    rfl
  · rw [cast_mulModQ, cast_subModQ hy_lt hx_lt, hindex]
    rfl

/-! ## The transforms -/

theorem forwardPasses_zero (wi : ℕ) : forwardPasses (2 ^ 0 / 2) wi = [] := by
  rw [forwardPasses]
  exact if_neg (Nat.lt_irrefl 0)

/-- The first of the layers that are left. -/
theorem forwardPasses_succ (s n : ℕ) (hn : n * (2 * 2 ^ s) = 256) :
    forwardPasses (2 ^ (s + 1) / 2) (n - 1) =
      forwardLayer (2 ^ s) (n - 1) ++ forwardPasses (2 ^ s / 2) (2 * n - 1) := by
  have hl : 2 ^ (s + 1) / 2 = 2 ^ s := by rw [pow_succ, Nat.mul_div_cancel _ Nat.two_pos]
  have hpos := pos_of_mul_eq hn
  rw [forwardPasses, hl, if_pos (Nat.two_pow_pos s), div_of_mul_eq hn,
    show n - 1 + n = 2 * n - 1 by omega]

/-- The passes of `ntt_forward` from a layer on are the transform of its blocks. -/
theorem foldl_forwardPasses (s n : ℕ) (hn : n * 2 ^ s = 256) (hf : Reduced f)
    (hx : ∀ k < 256, residue f k = x k) :
    Reduced ((forwardPasses (2 ^ s / 2) (n - 1)).foldl forwardStep f) ∧
      ∀ k < 256, residue ((forwardPasses (2 ^ s / 2) (n - 1)).foldl forwardStep f) k =
        forward root s n x k := by
  induction s generalizing n f x with
  | zero =>
    rw [forwardPasses_zero]
    exact ⟨hf, hx⟩
  | succ s ih =>
    have hlen : n * (2 * 2 ^ s) = 256 := by rw [← hn, pow_succ, Nat.mul_comm 2]
    obtain ⟨hlayer, hresidue⟩ := foldl_forwardLayer (Nat.two_pow_pos s) hlen hf hx
    rw [forwardPasses_succ s n hlen, List.foldl_append, forward]
    exact ih (2 * n) (by rw [← hlen]; ring) hlayer hresidue

/-- The loops of `ntt_forward` are the transform. -/
theorem residue_nttForward (hf : Reduced f) :
    Reduced (nttForward f) ∧ ∀ k < 256, residue (nttForward f) k = forward root 8 1 (residue f) k :=
  foldl_forwardPasses 8 1 rfl hf fun _ _ => rfl

theorem inversePasses_last (wi : ℕ) : inversePasses (2 ^ 8) wi = [] := by
  rw [inversePasses]
  exact if_neg fun h => Nat.lt_irrefl 256 h.1

theorem two_pow_mul_eq (hs : s + (r + 1) = 8) : 2 ^ r * (2 * 2 ^ s) = 256 := by
  calc 2 ^ r * (2 * 2 ^ s) = 2 ^ (s + (r + 1)) := by ring
    _ = 256 := by rw [hs]; rfl

/-- The first of the layers that are left. -/
theorem inversePasses_succ (hs : s + (r + 1) = 8) :
    inversePasses (2 ^ s) (2 ^ (r + 1)) =
      inverseLayer (2 ^ s) (2 * 2 ^ r) ++ inversePasses (2 ^ (s + 1)) (2 ^ r) := by
  have hlen := two_pow_mul_eq hs
  have hlt : 2 ^ s < RACCOONG_N := by
    have hpos := Nat.two_pow_pos s
    have hle := Nat.le_mul_of_pos_left (2 * 2 ^ s) (Nat.two_pow_pos r)
    rw [hlen] at hle
    show 2 ^ s < 256
    omega
  have hwi : 2 ^ (r + 1) = 2 * 2 ^ r := by ring
  rw [inversePasses, if_pos ⟨hlt, Nat.two_pow_pos s⟩, div_of_mul_eq hlen, hwi,
    show 2 * 2 ^ r - 2 ^ r = 2 ^ r by omega, show 2 * 2 ^ s = 2 ^ (s + 1) by ring]

/-- The passes of `ntt_inverse` from a layer on, where the inverse of smaller blocks was reached. -/
theorem foldl_inversePasses (r s : ℕ) (hs : s + r = 8) (hf : Reduced f)
    (hx : ∀ k < 256, residue f k = inverse root s (2 ^ r) x k) :
    Reduced ((inversePasses (2 ^ s) (2 ^ r)).foldl inverseStep f) ∧
      ∀ k < 256, residue ((inversePasses (2 ^ s) (2 ^ r)).foldl inverseStep f) k =
        inverse root 8 1 x k := by
  induction r generalizing s f with
  | zero =>
    obtain rfl : s = 8 := by omega
    rw [inversePasses_last]
    exact ⟨hf, hx⟩
  | succ r ih =>
    have hwi : 2 ^ (r + 1) = 2 * 2 ^ r := by ring
    obtain ⟨hlayer, hresidue⟩ := foldl_inverseLayer (Nat.two_pow_pos s) (two_pow_mul_eq hs) hf hx
    rw [inversePasses_succ hs, List.foldl_append]
    rw [hwi] at hresidue
    exact ih (s + 1) (by omega) hlayer hresidue

theorem get_map (g : UInt64 → UInt64) (f : Polyr) (hk : k < 256) :
    (f.map g).get k = g (f.get k) := by
  have hlt : k < f.1.length := by rw [f.2]; exact hk
  rw [Polyr.get, Polyr.get, Polyr.map, List.getD_eq_getElem?_getD, List.getD_eq_getElem?_getD,
    List.getElem?_map, List.getElem?_eq_getElem hlt]
  rfl

/-- The loops of `ntt_inverse` are the inverse transform, divided by the number of coefficients. -/
theorem residue_nttInverse (hf : Reduced f) :
    Reduced (nttInverse f) ∧
      ∀ k < 256, residue (nttInverse f) k = (RACCOONG_NI.toNat : ZMod q) *
        inverse root 8 1 (residue f) k := by
  have hone : (2 : ℕ) ^ 0 = 1 := rfl
  have hlen : (2 : ℕ) ^ 8 = RACCOONG_N := rfl
  have hstart : ∀ k < 256, residue f k = inverse root 0 (2 ^ 8) (residue f) k := by
    intro k _
    rw [inverse]
  obtain ⟨-, hresidue⟩ := foldl_inversePasses 8 0 (Nat.zero_add 8) hf hstart
  rw [hone, hlen] at hresidue
  rw [nttInverse]
  generalize (inversePasses 1 RACCOONG_N).foldl inverseStep f = g at hresidue ⊢
  constructor
  · intro c hc
    obtain ⟨c', -, rfl⟩ := List.mem_map.mp hc
    exact mulModQ_lt _ _
  · intro k hk
    rw [← hresidue k hk, residue, get_map _ _ hk, cast_mulModQ, residue]

theorem residue_nttPointwise (a b : Polyr) :
    Reduced (nttPointwise a b) ∧ ∀ k < 256, residue (nttPointwise a b) k =
      residue a k * residue b k := by
  constructor
  · intro c hc
    rw [nttPointwise, Polyr.zipWith, List.mem_iff_getElem] at hc
    obtain ⟨i, hi, rfl⟩ := hc
    rw [List.getElem_zipWith]
    exact mulModQ_lt _ _
  · intro k hk
    have hget : (nttPointwise a b).get k = mulModQ (a.get k) (b.get k) := by
      have ha : k < a.1.length := by rw [a.2]; exact hk
      have hb : k < b.1.length := by rw [b.2]; exact hk
      rw [nttPointwise, Polyr.zipWith, Polyr.get, Polyr.get, Polyr.get, List.getD_eq_getElem?_getD,
        List.getD_eq_getElem?_getD, List.getD_eq_getElem?_getD, List.getElem?_zipWith,
        List.getElem?_eq_getElem ha, List.getElem?_eq_getElem hb]
      rfl
    rw [residue, hget, cast_mulModQ, residue, residue]

/-- Reduced polynomials are determined by their residues. -/
theorem eq_of_residue {g : Polyr} (hf : Reduced f) (hg : Reduced g)
    (h : ∀ k < 256, residue f k = residue g k) :
    f = g := by
  apply Subtype.ext
  apply List.ext_getElem (by rw [f.2, g.2])
  intro k hkf hkg
  have hk : k < 256 := by rwa [f.2] at hkf
  have hcast := (ZMod.natCast_eq_natCast_iff' _ _ _).mp (h k hk)
  rw [Nat.mod_eq_of_lt (hf.get_lt k), Nat.mod_eq_of_lt (hg.get_lt k)] at hcast
  have hget := UInt64.toNat_inj.mp hcast
  rwa [Polyr.get, Polyr.get, List.getD_eq_getElem?_getD, List.getD_eq_getElem?_getD,
    List.getElem?_eq_getElem hkf, List.getElem?_eq_getElem hkg] at hget

theorem ni_mul_two_pow : (RACCOONG_NI.toNat : ZMod q) * 2 ^ 8 = 1 := by
  have h : RACCOONG_NI.toNat * 2 ^ 8 % q = 1 % q := by decide +kernel
  have hcast := (ZMod.natCast_eq_natCast_iff' _ _ q).mpr h
  rwa [Nat.cast_mul, Nat.cast_pow, Nat.cast_one] at hcast

/-- **The round trip.** The inverse transform gives a polynomial back. -/
theorem nttInverse_nttForward (hf : Reduced f) : nttInverse (nttForward f) = f := by
  obtain ⟨hforward, hvalue⟩ := residue_nttForward hf
  obtain ⟨hinverse, hback⟩ := residue_nttInverse hforward
  refine eq_of_residue hinverse hf fun k hk => ?_
  have hundo := inverse_forward root 8 1 (by simpa only [Nat.one_mul] using root_inverse)
    (residue f) k hk
  rw [hback k hk, inverse_congr root 8 1 hvalue k hk, hundo, ← mul_assoc, ni_mul_two_pow, one_mul]

/-- The other way around: the inverse transform of a polynomial is transformed to it. -/
theorem nttForward_nttInverse (hf : Reduced f) : nttForward (nttInverse f) = f := by
  obtain ⟨hinverse, hback⟩ := residue_nttInverse hf
  obtain ⟨hforward, hvalue⟩ := residue_nttForward hinverse
  refine eq_of_residue hforward hf fun k hk => ?_
  have hundo := forward_inverse root 8 1 (by simpa only [Nat.one_mul] using root_inverse)
    (residue f) k hk
  rw [hvalue k hk, forward_congr root 8 1 hback k hk, forward_mul_left]
  dsimp only
  rw [hundo, ← mul_assoc, ni_mul_two_pow, one_mul]

/-- The product of two transforms comes back as the negacyclic product. -/
theorem residue_product {a b : Polyr} (ha : Reduced a) (hb : Reduced b) :
    ∀ k < 256, residue (nttInverse (nttPointwise (nttForward a) (nttForward b))) k =
      negaMul 256 (residue a) (residue b) k := by
  obtain ⟨-, hforwardA⟩ := residue_nttForward ha
  obtain ⟨-, hforwardB⟩ := residue_nttForward hb
  obtain ⟨hreduced, hpointwise⟩ := residue_nttPointwise (nttForward a) (nttForward b)
  obtain ⟨-, hback⟩ := residue_nttInverse hreduced
  have hvalue : ∀ k < 1 * 2 ^ 8, residue (nttPointwise (nttForward a) (nttForward b)) k =
      forward root 8 1 (residue a) k * forward root 8 1 (residue b) k := by
    intro k hk
    rw [hpointwise k hk, hforwardA k hk, hforwardB k hk]
  intro k hk
  have hproduct := inverse_mul_forward 8 root_sq root_inverse (residue a) (residue b) k hk
  rw [hback k hk, inverse_congr root 8 1 hvalue k hk, hproduct, ← mul_assoc,
    ni_mul_two_pow, one_mul]
  rfl

/-! ## The ring -/

/-- The element of `Z_q[X] / (X ^ 256 + 1)` with these coefficients. -/
noncomputable def toRing (f : Polyr) : AdjoinRoot (X ^ 256 + 1 : (ZMod q)[X]) :=
  AdjoinRoot.mk (X ^ 256 + 1) (∑ k ∈ Finset.range 256, C (residue f k) * X ^ k)

theorem toRing_eq_sum (f : Polyr) :
    toRing f = ∑ k ∈ Finset.range 256, AdjoinRoot.of (X ^ 256 + 1 : (ZMod q)[X]) (residue f k) *
      AdjoinRoot.root (X ^ 256 + 1 : (ZMod q)[X]) ^ k := by
  rw [toRing, map_sum]
  apply Finset.sum_congr rfl
  intro k _
  rw [map_mul, map_pow, AdjoinRoot.mk_C, AdjoinRoot.mk_X]

theorem root_pow_eq_neg_one : AdjoinRoot.root (X ^ 256 + 1 : (ZMod q)[X]) ^ 256 = -1 := by
  have h := AdjoinRoot.mk_self (f := (X ^ 256 + 1 : (ZMod q)[X]))
  rw [map_add, map_pow, map_one, AdjoinRoot.mk_X] at h
  exact eq_neg_of_add_eq_zero_left h

/-- The product of two transforms comes back as the product in the ring. -/
theorem toRing_product {a b : Polyr} (ha : Reduced a) (hb : Reduced b) :
    toRing (nttInverse (nttPointwise (nttForward a) (nttForward b))) = toRing a * toRing b := by
  rw [toRing_eq_sum, toRing_eq_sum, toRing_eq_sum,
    ← eval_negaMul (AdjoinRoot.of (X ^ 256 + 1)) root_pow_eq_neg_one (residue a) (residue b)]
  apply Finset.sum_congr rfl
  intro k hk
  rw [residue_product ha hb k (Finset.mem_range.mp hk)]

/-! ## The intermediate coefficients -/

/-- The sum of `add_mod_q` has 64 bits. -/
def AddFits (a b : UInt64) : Prop := a.toNat + b.toNat < 2 ^ 64

/-- The sum of `sub_mod_q` has 64 bits, and is not below what is taken from it. -/
def SubFits (a b : UInt64) : Prop :=
  a.toNat + RACCOONG_Q.toNat < 2 ^ 64 ∧ b.toNat ≤ a.toNat + RACCOONG_Q.toNat

/-- The sums of a pass of `ntt_forward`. -/
def ForwardSums (f : Polyr) (p : Butterfly) : Prop :=
  let x := f.get p.j
  let y := mulModQ (f.get (p.j + p.l)) (RACCOONG_W.getD p.wi 0)
  AddFits x y ∧ SubFits x y

/-- The sums of a pass of `ntt_inverse`. -/
def InverseSums (f : Polyr) (p : Butterfly) : Prop :=
  let x := f.get p.j
  let y := f.get (p.j + p.l)
  AddFits x y ∧ SubFits y x

/-- Pass by pass, the indices are those of the arrays, the coefficients are reduced before and
after, and the sums do not wrap. -/
def Safe (step : Polyr → Butterfly → Polyr) (sums : Polyr → Butterfly → Prop)
    (passes : List Butterfly) (f : Polyr) : Prop :=
  ∀ done p rest, passes = done ++ p :: rest →
    (0 < p.wi ∧ p.wi < RACCOONG_W.length ∧ p.j + p.l < RACCOONG_N) ∧
      Reduced (done.foldl step f) ∧ sums (done.foldl step f) p ∧
        Reduced (step (done.foldl step f) p)

/-- `ntt_forward` is safe. -/
def SafeForward (f : Polyr) : Prop := Safe forwardStep ForwardSums
    (forwardPasses (RACCOONG_N / 2) 0) f

/-- `ntt_inverse` is safe. -/
def SafeInverse (f : Polyr) : Prop := Safe inverseStep InverseSums (inversePasses 1 RACCOONG_N) f

theorem addFits_of_lt (ha : a.toNat < q) (hb : b.toNat < q) : AddFits a b := by
  have hq : q = 562949953438721 := rfl
  rw [AddFits]
  omega

theorem subFits_of_lt (ha : a.toNat < q) (hb : b.toNat < q) : SubFits a b := by
  have hq : q = 562949953438721 := rfl
  rw [SubFits, toNat_Q]
  omega

theorem reduced_forwardStep (hf : Reduced f) (p : Butterfly) : Reduced (forwardStep f p) :=
  (hf.set _ (addModQ_lt (hf.get_lt _) (mulModQ_lt _ _))).set _
    (subModQ_lt (hf.get_lt _) (mulModQ_lt _ _))

theorem reduced_inverseStep (hf : Reduced f) (p : Butterfly) : Reduced (inverseStep f p) :=
  (hf.set _ (addModQ_lt (hf.get_lt _) (hf.get_lt _))).set _ (mulModQ_lt _ _)

theorem forwardSums_of_reduced (hf : Reduced f) (p : Butterfly) : ForwardSums f p :=
  ⟨addFits_of_lt (hf.get_lt _) (mulModQ_lt _ _), subFits_of_lt (hf.get_lt _) (mulModQ_lt _ _)⟩

theorem inverseSums_of_reduced (hf : Reduced f) (p : Butterfly) : InverseSums f p :=
  ⟨addFits_of_lt (hf.get_lt _) (hf.get_lt _), subFits_of_lt (hf.get_lt _) (hf.get_lt _)⟩

/-- A pair of a layer lies below the number of coefficients. -/
theorem mem_layer (hn : n * (2 * l) = 256) {index : ℕ → ℕ} {p : Butterfly}
    (h : p ∈ (List.range n).flatMap fun b => (List.range l).map fun m =>
      ({ l := l, wi := index b, j := b * (2 * l) + m } : Butterfly)) :
    (∃ b < n, p.wi = index b) ∧ p.j + p.l < 256 := by
  obtain ⟨b, hb, hp⟩ := List.mem_flatMap.mp h
  obtain ⟨m, hm, rfl⟩ := List.mem_map.mp hp
  rw [List.mem_range] at hb hm
  exact ⟨⟨b, hb, rfl⟩, upper_lt hn hb hm⟩

theorem mem_forwardPasses (s n : ℕ) (hn : n * 2 ^ s = 256) :
    ∀ p ∈ forwardPasses (2 ^ s / 2) (n - 1), 0 < p.wi ∧ p.wi < 256 ∧ p.j + p.l < 256 := by
  induction s generalizing n with
  | zero =>
    rw [forwardPasses_zero]
    intro p hp
    exact absurd hp List.not_mem_nil
  | succ s ih =>
    have hlen : n * (2 * 2 ^ s) = 256 := by rw [← hn, pow_succ, Nat.mul_comm 2]
    have hpos := pos_of_mul_eq hlen
    rw [forwardPasses_succ s n hlen]
    intro p hp
    rcases List.mem_append.mp hp with hlayer | hrest
    · rw [forwardLayer, div_of_mul_eq hlen] at hlayer
      obtain ⟨⟨b, hb, hwi⟩, hindex⟩ := mem_layer hlen hlayer
      have hle := Nat.mul_le_mul_left (n * 2) (Nat.two_pow_pos s)
      rw [Nat.mul_assoc, Nat.mul_assoc, hlen] at hle
      refine ⟨by omega, by omega, hindex⟩
    · exact ih (2 * n) (by rw [← hlen]; ring) p hrest

theorem mem_inversePasses (r s : ℕ) (hs : s + r = 8) :
    ∀ p ∈ inversePasses (2 ^ s) (2 ^ r), 0 < p.wi ∧ p.wi < 256 ∧ p.j + p.l < 256 := by
  induction r generalizing s with
  | zero =>
    obtain rfl : s = 8 := by omega
    rw [inversePasses_last]
    intro p hp
    exact absurd hp List.not_mem_nil
  | succ r ih =>
    have hlen := two_pow_mul_eq hs
    rw [inversePasses_succ hs]
    intro p hp
    rcases List.mem_append.mp hp with hlayer | hrest
    · rw [inverseLayer, div_of_mul_eq hlen] at hlayer
      obtain ⟨⟨b, hb, hwi⟩, hindex⟩ := mem_layer hlen hlayer
      have hle := Nat.mul_le_mul_left (2 ^ r * 2) (Nat.two_pow_pos s)
      rw [Nat.mul_assoc, Nat.mul_assoc, hlen] at hle
      refine ⟨by omega, by omega, hindex⟩
    · exact ih (s + 1) (by omega) p hrest

/-- What one pass keeps, all of them keep. -/
theorem safe_of_reduced {step : Polyr → Butterfly → Polyr} {sums : Polyr → Butterfly → Prop}
    {passes : List Butterfly} (hf : Reduced f)
    (hindex : ∀ p ∈ passes, 0 < p.wi ∧ p.wi < 256 ∧ p.j + p.l < 256)
    (hstep : ∀ {g}, Reduced g → ∀ p, Reduced (step g p))
    (hsums : ∀ {g}, Reduced g → ∀ p, sums g p) :
    Safe step sums passes f := by
  intro done p rest hpasses
  have hbefore : Reduced (done.foldl step f) := by
    clear hpasses
    induction done using List.reverseRecOn with
    | nil => exact hf
    | append_singleton done p ih =>
      rw [List.foldl_append]
      exact hstep ih p
  have hmem : p ∈ passes := by
    rw [hpasses]
    exact List.mem_append_right done List.mem_cons_self
  have hlen : RACCOONG_W.length = 256 := by decide +kernel
  rw [hlen]
  exact ⟨hindex p hmem, hbefore, hsums hbefore p, hstep hbefore p⟩

theorem safeForward (hf : Reduced f) : SafeForward f := by
  have hindex := mem_forwardPasses 8 1 (Nat.one_mul _)
  have hlen : (2 : ℕ) ^ 8 / 2 = RACCOONG_N / 2 := rfl
  rw [hlen] at hindex
  exact safe_of_reduced hf hindex reduced_forwardStep forwardSums_of_reduced

theorem safeInverse (hf : Reduced f) : SafeInverse f := by
  have hone : (2 : ℕ) ^ 0 = 1 := rfl
  have hlen : (2 : ℕ) ^ 8 = RACCOONG_N := rfl
  have hindex := mem_inversePasses 8 0 (Nat.zero_add 8)
  rw [hone, hlen] at hindex
  exact safe_of_reduced hf hindex reduced_inverseStep inverseSums_of_reduced

/-- **The transform.** The inverse transform gives a polynomial back, and the product of two
transforms the product in the ring. All coefficients on the way are reduced, and no sum wraps. -/
theorem ntt_product {a b : Polyr} (ha : Reduced a) (hb : Reduced b) :
    nttInverse (nttForward a) = a ∧
      toRing (nttInverse (nttPointwise (nttForward a) (nttForward b))) = toRing a * toRing b ∧
      Reduced (nttInverse (nttPointwise (nttForward a) (nttForward b))) ∧
      SafeForward a ∧ SafeForward b ∧ Reduced (nttForward a) ∧ Reduced (nttForward b) ∧
      SafeInverse (nttForward a) ∧ Reduced (nttPointwise (nttForward a) (nttForward b)) ∧
      SafeInverse (nttPointwise (nttForward a) (nttForward b)) := by
  have hforwardA := (residue_nttForward ha).1
  have hforwardB := (residue_nttForward hb).1
  have hpointwise := (residue_nttPointwise (nttForward a) (nttForward b)).1
  exact ⟨nttInverse_nttForward ha, toRing_product ha hb, (residue_nttInverse hpointwise).1,
    safeForward ha,
    safeForward hb, hforwardA, hforwardB, safeInverse hforwardA, hpointwise, safeInverse hpointwise⟩

/-- A constant polynomial. -/
def constant (c : UInt64) : Polyr :=
  ⟨c :: List.replicate 255 0, by rw [List.length_cons, List.length_replicate]⟩

theorem reduced_constant (hc : c.toNat < q) : Reduced (constant c) := by
  intro x hx
  rcases List.mem_cons.mp hx with rfl | hzero
  · exact hc
  · rw [List.eq_of_mem_replicate hzero]
    exact NeZero.pos q

theorem ntt_product_sample :
    nttInverse (nttForward (constant 2)) = constant 2 ∧
      toRing (nttInverse (nttPointwise (nttForward (constant 2)) (nttForward (constant 3)))) =
        toRing (constant 2) * toRing (constant 3) := by
  obtain ⟨hback, hproduct, -⟩ := ntt_product (reduced_constant (c := 2) (by decide))
    (reduced_constant (c := 3) (by decide))
  exact ⟨hback, hproduct⟩

end Raccoong

end Libdogecoin
