/-
# Logs of records

A log is read record by record, until what is left is too short for another one. A record may be
longer than what is there. Then the reading ends behind the log. What is written afterwards stands
where the reading ended.

* `Format.scanAll_append` : how a log is read when something was written behind it;
* `Faithful.front_eq_iff` : which records stand in front of what cannot be read;
* `Written.scanAll_iff` : which records are read back.
-/
import Mathlib.Data.List.Basic
import Mathlib.Data.Nat.Basic

namespace LogScan

variable {β ρ : Type} {fill : β} {file bs : List β} {pos : ℕ}

/-! ## Writing at a position -/

/-- A file behind a write. What lies between its end and the position is filled. -/
def writeAt (fill : β) (file : List β) (pos : ℕ) (bs : List β) : List β :=
  if bs.isEmpty then file
  else file.take pos ++ List.replicate (pos - file.length) fill ++ bs ++ file.drop (pos + bs.length)

theorem writeAt_nil (fill : β) (file : List β) (pos : ℕ) : writeAt fill file pos [] = file := rfl

/-- Behind the end. -/
theorem writeAt_of_le (hpos : file.length ≤ pos) (hbs : bs ≠ []) :
    writeAt fill file pos bs = file ++ List.replicate (pos - file.length) fill ++ bs := by
  unfold writeAt
  rw [if_neg (by rw [List.isEmpty_iff]; exact hbs), List.take_of_length_le hpos,
    List.drop_eq_nil_of_le (by omega), List.append_nil]

/-- One write after the other. -/
theorem writeAt_writeAt {as : List β} (hpos : file.length ≤ pos) (has : as ≠ []) :
    writeAt fill (writeAt fill file pos as) (pos + as.length) bs =
      writeAt fill file pos (as ++ bs) := by
  by_cases hbs : bs = []
  · rw [hbs, writeAt_nil, List.append_nil]
  · have hlen : (file ++ List.replicate (pos - file.length) fill ++ as).length =
      pos + as.length := by
      rw [List.length_append, List.length_append, List.length_replicate]
      omega
    have happend : as ++ bs ≠ [] := fun h => has (List.append_eq_nil_iff.mp h).1
    rw [writeAt_of_le hpos has, writeAt_of_le hpos happend, writeAt_of_le (le_of_eq hlen) hbs,
      hlen, Nat.sub_self, List.replicate_zero, List.append_nil, List.append_assoc _ as bs]

/-! ## Reading a log -/

/-- How a record is read: the record, and how far the next one is. More behind it changes
nothing. -/
structure Format (β ρ : Type) where
  /-- What is shorter holds no record. -/
  short : ℕ
  read : List β → Option (ρ × ℕ)
  short_pos : 0 < short
  read_pos : ∀ {buf : List β} {x : ρ} {n : ℕ}, read buf = some (x, n) → 0 < n
  read_append : ∀ {buf : List β} {p : ρ × ℕ} (tail : List β), read buf = some p →
    read (buf ++ tail) = some p

/-- The records of a log, where the reading ended, and the last items, which were too few for a
record. -/
structure Scan (β ρ : Type) where
  records : List ρ
  position : ℕ
  stray : List β

/-- A record in front. -/
def Scan.after (x : ρ) (n : ℕ) (w : Scan β ρ) : Scan β ρ where
  records := x :: w.records
  position := n + w.position
  stray := w.stray

/-- A log behind another one, over the stray items of the first. -/
def Scan.behind (w w' : Scan β ρ) : Scan β ρ where
  records := w.records ++ w'.records
  position := w.position - w.stray.length + w'.position
  stray := w'.stray

namespace Format

variable (F : Format β ρ)

/-- The loop over the records of a log that is not longer than the fuel. -/
def scan : ℕ → List β → Option (Scan β ρ)
  | 0, buf => some ⟨[], buf.length, buf⟩
  | fuel + 1, buf =>
    if buf.length < F.short then some ⟨[], buf.length, buf⟩
    else (F.read buf).bind fun p => (scan fuel (buf.drop p.2)).map (Scan.after p.1 p.2)

/-- The whole log. -/
def scanAll (buf : List β) : Option (Scan β ρ) := F.scan buf.length buf

variable {F}

variable {buf : List β} {w : Scan β ρ}

/-- More fuel changes nothing. -/
theorem scan_of_le {fuel : ℕ} (hfuel : buf.length ≤ fuel) : F.scan fuel buf = F.scanAll buf := by
  unfold scanAll
  induction fuel using Nat.strongRecOn generalizing buf with
  | ind fuel ih =>
    cases fuel with
    | zero =>
      have hnil : buf.length = 0 := Nat.le_zero.mp hfuel
      rw [hnil]
    | succ fuel =>
      cases hlen : buf.length with
      | zero =>
        rw [scan, scan, if_pos (by rw [hlen]; exact F.short_pos)]
      | succ n =>
        rw [scan, scan]
        split_ifs with hshort
        · rfl
        · cases hread : F.read buf with
          | none => rfl
          | some p =>
            have hpos := F.read_pos (x := p.1) (n := p.2) hread
            have hdrop : (buf.drop p.2).length ≤ n := by
              rw [List.length_drop]
              omega
            rw [Option.bind_some, Option.bind_some, ih fuel (Nat.lt_succ_self fuel) (by omega),
              ih n (by omega) hdrop]

/-- The loop without its fuel. -/
theorem scanAll_eq (buf : List β) :
    F.scanAll buf = if buf.length < F.short then some ⟨[], buf.length, buf⟩
      else (F.read buf).bind fun p => (F.scanAll (buf.drop p.2)).map (Scan.after p.1 p.2) := by
  cases hlen : buf.length with
  | zero =>
    rw [if_pos F.short_pos, scanAll, hlen, scan, hlen]
  | succ n =>
    rw [scanAll, hlen, scan, hlen]
    split_ifs with hshort
    · rfl
    · cases hread : F.read buf with
      | none => rfl
      | some p =>
        have hpos := F.read_pos (x := p.1) (n := p.2) hread
        rw [Option.bind_some, Option.bind_some, scan_of_le (by rw [List.length_drop]; omega)]

theorem scanAll_of_short (h : buf.length < F.short) :
    F.scanAll buf = some ⟨[], buf.length, buf⟩ := by
  rw [scanAll_eq, if_pos h]

theorem scanAll_nil : F.scanAll [] = some ⟨[], 0, []⟩ := scanAll_of_short F.short_pos

/-- A log with a record in front. -/
theorem scanAll_of_read {x : ρ} {n : ℕ} (hlen : F.short ≤ buf.length)
    (hread : F.read buf = some (x, n)) :
    F.scanAll buf = (F.scanAll (buf.drop n)).map (Scan.after x n) := by
  rw [scanAll_eq, if_neg (by omega), hread, Option.bind_some]

/-- A log with records in front that are read as they are. -/
theorem scanAll_flatMap_append {γ : Type} {enc : γ → List β} {val : γ → ρ}
    (hshort : ∀ r, F.short ≤ (enc r).length) {rs : List γ}
    (hread : ∀ r ∈ rs, ∀ tail, F.read (enc r ++ tail) = some (val r, (enc r).length))
    (tail : List β) :
    F.scanAll (rs.flatMap enc ++ tail) = (F.scanAll tail).map fun w =>
      ⟨rs.map val ++ w.records, (rs.flatMap enc).length + w.position, w.stray⟩ := by
  induction rs with
  | nil =>
    have hid : (fun w : Scan β ρ =>
      Scan.mk ([].map val ++ w.records) (([].flatMap enc).length + w.position) w.stray) = id := by
      funext w
      show Scan.mk w.records (0 + w.position) w.stray = w
      rw [Nat.zero_add]
    rw [hid, Option.map_id, id]
    rfl
  | cons r rs ih =>
    obtain ⟨hr, hrs⟩ := List.forall_mem_cons.mp hread
    have hlen : F.short ≤ (enc r ++ (rs.flatMap enc ++ tail)).length := by
      have hle := hshort r
      rw [List.length_append]
      omega
    rw [List.flatMap_cons, List.append_assoc, scanAll_of_read hlen (hr _), List.drop_left, ih hrs,
      Option.map_map]
    congr 1
    funext w
    show Scan.mk (val r :: (rs.map val ++ w.records))
      ((enc r).length + ((rs.flatMap enc).length + w.position)) w.stray =
      Scan.mk (val r :: rs.map val ++ w.records) ((enc r ++ rs.flatMap enc).length +
        w.position) w.stray
    rw [List.length_append, Nat.add_assoc]
    rfl

/-- What a log that was read starts with. -/
theorem scanAll_cases (h : F.scanAll buf = some w) :
    (buf.length < F.short ∧ w = ⟨[], buf.length, buf⟩) ∨
      ∃ x n w', F.short ≤ buf.length ∧ F.read buf = some (x, n) ∧ 0 < n ∧
      F.scanAll (buf.drop n) = some w' ∧
        w = w'.after x n := by
  rw [scanAll_eq] at h
  split_ifs at h with hshort
  · exact Or.inl ⟨hshort, (Option.some.inj h).symm⟩
  · obtain ⟨⟨x, n⟩, hread, hrest⟩ := Option.bind_eq_some_iff.mp h
    obtain ⟨w', hw', heq⟩ := Option.map_eq_some_iff.mp hrest
    exact Or.inr ⟨x, n, w', not_lt.mp hshort, hread, F.read_pos hread, hw', heq.symm⟩

/-- Where the reading ends: at the end, or behind it with nothing left. -/
theorem position_of_scanAll (h : F.scanAll buf = some w) :
    buf.length ≤ w.position ∧ w.stray.length ≤ w.position ∧ w.stray.length < F.short ∧
      (w.stray ≠ [] → w.position = buf.length) := by
  induction hn : buf.length using Nat.strongRecOn generalizing buf w with
  | ind m ih =>
    subst hn
    rcases scanAll_cases h with ⟨hshort, rfl⟩ | ⟨x, n, w', hlen, -, hpos, hrest, rfl⟩
    · exact ⟨le_refl _, le_refl _, hshort, fun _ => rfl⟩
    · have hdrop : (buf.drop n).length < buf.length := by
        have hshort := F.short_pos
        rw [List.length_drop]
        omega
      obtain ⟨hle, hwithin, hstray, hend⟩ := ih _ hdrop hrest rfl
      rw [List.length_drop] at hle hend
      refine ⟨?_, Nat.le_add_left_of_le hwithin, hstray, ?_⟩
      · show buf.length ≤ n + w'.position
        omega
      · intro hne
        have hposition := hend hne
        -- something is left, so the record ended inside
        have hleft : n ≤ buf.length := by
          by_contra hbehind
          rw [List.drop_eq_nil_of_le (by omega), scanAll_nil] at hrest
          rw [← Option.some.inj hrest] at hne
          exact hne rfl
        show n + w'.position = buf.length
        omega

/-- **Something behind a log** is read over the stray items, where the reading had ended. -/
theorem scanAll_append (h : F.scanAll buf = some w) {fill : List β}
    (hfill : fill.length = w.position - buf.length) (tail : List β) :
    F.scanAll (buf ++ fill ++ tail) = (F.scanAll (w.stray ++ tail)).map w.behind := by
  induction hn : buf.length using Nat.strongRecOn generalizing buf w fill with
  | ind m ih =>
    subst hn
    rcases scanAll_cases h with ⟨-, rfl⟩ | ⟨x, n, w', hlen, hread, hpos, hrest, rfl⟩
    · obtain rfl : fill = [] := List.eq_nil_of_length_eq_zero (by rw [hfill]; exact Nat.sub_self _)
      rw [List.append_nil]
      have hbehind : (⟨[], buf.length, buf⟩ : Scan β ρ).behind = id := by
        funext w'
        show Scan.mk w'.records (buf.length - buf.length + w'.position) w'.stray = w'
        rw [Nat.sub_self, Nat.zero_add]
      rw [hbehind, Option.map_id, id]
    · have hdrop : (buf.drop n).length < buf.length := by
        have hshort := F.short_pos
        rw [List.length_drop]
        omega
      obtain ⟨hposition, hstray, -, -⟩ := position_of_scanAll hrest
      rw [List.length_drop] at hposition
      have hfill' : fill.length = n + w'.position - buf.length := hfill
      have hread' : F.read (buf ++ fill ++ tail) = some (x, n) := by
        rw [List.append_assoc]
        exact F.read_append _ hread
      -- the position of the record behind the first one
      have hsplit : (buf ++ fill ++ tail).drop n =
        buf.drop n ++ fill.drop (n - buf.length) ++ tail := by
        rw [List.append_assoc, List.drop_append, List.drop_append, List.append_assoc]
        congr 2
        have hzero : n - buf.length - fill.length = 0 := by omega
        rw [hzero, List.drop_zero]
      have hfill'' : (fill.drop (n - buf.length)).length = w'.position - (buf.drop n).length := by
        rw [List.length_drop, List.length_drop, hfill']
        omega
      have hinner := ih _ hdrop hrest hfill'' rfl
      have hlong : F.short ≤ (buf ++ fill ++ tail).length := by
        rw [List.length_append, List.length_append]
        omega
      rw [scanAll_of_read hlong hread', hsplit, hinner]
      -- the record in front of both
      show _ = Option.map (w'.after x n).behind (F.scanAll (w'.stray ++ tail))
      rw [Option.map_map]
      congr 1
      funext w''
      show Scan.mk (x :: (w'.records ++ w''.records))
        (n + (w'.position - w'.stray.length + w''.position)) w''.stray =
        Scan.mk ((x :: w'.records) ++ w''.records) (n + w'.position - w'.stray.length +
          w''.position) w''.stray
      congr 1
      omega

/-- What holds of every record that is read holds of the records of a log. -/
theorem forall_of_scanAll {P : ρ → Prop} (hread : ∀ {buf x n}, F.read buf = some (x, n) → P x)
    (h : F.scanAll buf = some w) : ∀ x ∈ w.records, P x := by
  induction hn : buf.length using Nat.strongRecOn generalizing buf w with
  | ind m ih =>
    subst hn
    rcases scanAll_cases h with ⟨-, rfl⟩ | ⟨x, n, w', hlen, hfirst, hpos, hrest, rfl⟩
    · exact fun x hx => absurd hx List.not_mem_nil
    · have hdrop : (buf.drop n).length < buf.length := by
        have hshort := F.short_pos
        rw [List.length_drop]
        omega
      exact List.forall_mem_cons.mpr ⟨hread hfirst, ih _ hdrop hrest rfl⟩

/-- A log that starts with something else. -/
theorem scanAll_eq_none (hlen : F.short ≤ buf.length) (hread : F.read buf = none) :
    F.scanAll buf = none := by
  rw [scanAll_eq, if_neg (by omega), hread, Option.bind_none]

end Format

/-! ## The front of a log -/

/-- The records in front of the first one that cannot be read. -/
def front (F : Format β ρ) : ℕ → List β → List ρ
  | 0, _ => []
  | fuel + 1, buf =>
    if buf.length < F.short then []
    else
      match F.read buf with
      | none => []
      | some p => p.1 :: front F fuel (buf.drop p.2)

/-- No record stands in front. -/
def Format.Ends (F : Format β ρ) (buf : List β) : Prop := buf.length < F.short ∨ F.read buf = none

theorem front_of_ends {F : Format β ρ} {buf : List β} (h : F.Ends buf) (fuel : ℕ) :
    front F fuel buf = [] := by
  cases fuel with
  | zero => rfl
  | succ fuel =>
    unfold front
    rcases h with hlt | hread
    · rw [if_pos hlt]
    · rw [hread]
      exact ite_self _

/-- A format and its writer. What is read is what was written. -/
structure Faithful (F : Format β ρ) (enc : ρ → List β) (Good : ρ → Prop) : Prop where
  short : ∀ x, F.short ≤ (enc x).length
  read : ∀ {x}, Good x → ∀ tail, F.read (enc x ++ tail) = some (x, (enc x).length)
  sound : ∀ {buf x n}, F.read buf = some (x, n) → Good x ∧ n = (enc x).length ∧ ∃ tail,
    buf = enc x ++ tail

namespace Faithful

variable {F : Format β ρ} {enc : ρ → List β} {Good : ρ → Prop} {xs : List ρ}

/-- A good record in front. -/
theorem front_cons (h : Faithful F enc Good) {x : ρ} (hx : Good x) (fuel : ℕ) (tail : List β) :
    front F (fuel + 1) (enc x ++ tail) = x :: front F fuel tail := by
  have hshort := h.short x
  rw [front, if_neg (by rw [List.length_append]; omega), h.read hx tail]
  dsimp only
  rw [List.drop_left]

/-- What can be read starts with a good record. -/
theorem ends_iff (h : Faithful F enc Good) (buf : List β) :
    F.Ends buf ↔ ¬ ∃ x tail, Good x ∧ buf = enc x ++ tail := by
  constructor
  · rintro hends ⟨x, tail, hx, rfl⟩
    rcases hends with hlt | hnone
    · have hshort := h.short x
      rw [List.length_append] at hlt
      omega
    · rw [h.read hx] at hnone
      cases hnone
  · intro hnot
    by_contra hends
    unfold Format.Ends at hends
    rw [not_or] at hends
    obtain ⟨⟨x, n⟩, hread⟩ := Option.ne_none_iff_exists'.mp hends.2
    obtain ⟨hx, -, tail, rfl⟩ := h.sound hread
    exact hnot ⟨x, tail, hx, rfl⟩

/-- A good record has some items. -/
theorem length_pos (h : Faithful F enc Good) (x : ρ) :
    0 < (enc x).length := lt_of_lt_of_le F.short_pos (h.short x)

variable {fuel : ℕ}

/-- Records in front of an end. -/
theorem front_flatMap_append (h : Faithful F enc Good) (hgood : ∀ x ∈ xs, Good x) {tail : List β}
    (hends : F.Ends tail) (hfuel : (xs.flatMap enc ++ tail).length ≤ fuel) :
    front F fuel (xs.flatMap enc ++ tail) = xs := by
  induction xs generalizing fuel with
  | nil => exact front_of_ends hends fuel
  | cons x xs ih =>
    obtain ⟨hx, hxs⟩ := List.forall_mem_cons.mp hgood
    have hpos := h.length_pos x
    rw [List.flatMap_cons, List.append_assoc] at hfuel ⊢
    rw [List.length_append] at hfuel
    cases fuel with
    | zero => omega
    | succ fuel => rw [h.front_cons hx, ih hxs (by omega)]

/-- The records of a front were written in front of an end. -/
theorem exists_of_front (h : Faithful F enc Good) {buf : List β} (hfuel : buf.length ≤ fuel) :
    (∀ x ∈ front F fuel buf, Good x) ∧ ∃ tail, buf = (front F fuel buf).flatMap enc ++ tail ∧
    F.Ends tail := by
  induction fuel generalizing buf with
  | zero =>
    have hshort : buf.length < F.short := by
      have hpos := F.short_pos
      omega
    exact ⟨fun x hx => absurd hx List.not_mem_nil, buf, rfl, Or.inl hshort⟩
  | succ fuel ih =>
    by_cases hends : F.Ends buf
    · rw [front_of_ends hends]
      exact ⟨fun x hx => absurd hx List.not_mem_nil, buf, rfl, hends⟩
    · -- a record stands in front, and what is behind it is shorter
      rw [h.ends_iff, not_not] at hends
      obtain ⟨x, rest, hx, rfl⟩ := hends
      have hpos := h.length_pos x
      rw [List.length_append] at hfuel
      obtain ⟨hgood, tail, hrest, htail⟩ := @ih rest (by omega)
      rw [h.front_cons hx]
      refine ⟨List.forall_mem_cons.mpr ⟨hx, hgood⟩, tail, ?_, htail⟩
      rw [List.flatMap_cons, List.append_assoc, ← hrest]

/-- **The records of a front** are good, they were written in front, and no other stands behind
them. -/
theorem front_eq_iff (h : Faithful F enc Good) {buf : List β} (hfuel : buf.length ≤ fuel) :
    front F fuel buf = xs ↔ (∀ x ∈ xs, Good x) ∧ ∃ tail, buf = xs.flatMap enc ++ tail ∧
    F.Ends tail := by
  constructor
  · rintro rfl
    exact h.exists_of_front hfuel
  · rintro ⟨hgood, tail, rfl, hends⟩
    exact h.front_flatMap_append hgood hends hfuel

end Faithful

/-! ## Records that were written -/

/-- A writer beside a format. Exactly the good records are read back as what stands for them. -/
structure Written (F : Format β ρ) {γ : Type} (enc : γ → List β) (val : γ → ρ) (Good : γ → Prop) :
    Prop where
  short : ∀ r, F.short ≤ (enc r).length
  read : ∀ {r}, Good r → ∀ tail, F.read (enc r ++ tail) = some (val r, (enc r).length)
  back : ∀ {r tail n}, F.read (enc r ++ tail) = some (val r, n) → Good r

namespace Written

variable {F : Format β ρ} {γ : Type} {enc : γ → List β} {val : γ → ρ}
  {Good : γ → Prop} {rs : List γ}

/-- A good record in front. -/
theorem scanAll_cons (h : Written F enc val Good) {r : γ} (hr : Good r) (tail : List β) :
    F.scanAll (enc r ++ tail) = (F.scanAll tail).map (Scan.after (val r) (enc r).length) := by
  have hlen : F.short ≤ (enc r ++ tail).length := by
    have hshort := h.short r
    rw [List.length_append]
    omega
  rw [F.scanAll_of_read hlen (h.read hr tail), List.drop_left]

/-- **Good records** are read back. -/
theorem scanAll_flatMap (h : Written F enc val Good) (hrs : ∀ r ∈ rs, Good r) :
    F.scanAll (rs.flatMap enc) = some ⟨rs.map val, (rs.flatMap enc).length, []⟩ := by
  have hall := Format.scanAll_flatMap_append h.short (fun r hr => h.read (hrs r hr)) []
  rwa [List.append_nil, Format.scanAll_nil, Option.map_some, List.append_nil, Nat.add_zero] at hall

/-- **Which records** are read back. -/
theorem scanAll_iff (h : Written F enc val Good) :
    (∃ w, F.scanAll (rs.flatMap enc) = some w ∧ w.records = rs.map val) ↔ ∀ r ∈ rs, Good r := by
  constructor
  · rintro ⟨w, hw, hrecords⟩
    induction rs generalizing w with
    | nil => exact fun r hr => absurd hr List.not_mem_nil
    | cons r rs ih =>
      rw [List.flatMap_cons] at hw
      have hgood : Good r := by
        rcases Format.scanAll_cases hw with ⟨-, rfl⟩ | ⟨x, n, w', -, hread, -, -, rfl⟩
        · cases hrecords
        · obtain ⟨rfl, -⟩ := List.cons_eq_cons.mp hrecords
          exact h.back hread
      rw [h.scanAll_cons hgood] at hw
      obtain ⟨w', hw', rfl⟩ := Option.map_eq_some_iff.mp hw
      exact List.forall_mem_cons.mpr ⟨hgood, ih w' hw' (List.cons_eq_cons.mp hrecords).2⟩
  · intro hrs
    exact ⟨_, h.scanAll_flatMap hrs, rfl⟩

end Written

end LogScan
