import Chronicle.Proofs.Fields
import Chronicle.Proofs.Json.ReadBack

/-!
# Readers with more levels

A reader that may nest deeper reads whatever one with fewer levels reads, and in the same way (`readWithin_mono`): it
differs only where the other one gives up. What is read has distinct names and nests no deeper than the levels allow
(`of_readWithin`). So a text that was written for a value is read as that value or, if the value nests too deep, not at
all (`Legible.readWithin_write_eq_ok_iff`).
-/

namespace Chronicle.Json

open Text (Symbol symbolsOf)

/-! ## One item at a time

Before its next item a reader of lists does not look at how items are read: it comes to an end, or to a text that begins
with an item. -/

section Readers

variable {α : Type} {item item' : Reading Json} {P : Json → Prop}

/-- Reads one part, and then the others. -/
def readCons (one : Reading α) (more : Reading (List α)) : Reading (List α) := fun s =>
  one s >>= fun p => more p.2 >>= fun q => .ok (p.1 :: q.1, q.2)

theorem readCons_eq_ok_iff {one : Reading α} {more : Reading (List α)} {s rest : List Symbol} {xs : List α} :
    readCons one more s = .ok (xs, rest) ↔
      ∃ x t ys, one s = .ok (x, t) ∧ more t = .ok (ys, rest) ∧ xs = x :: ys := by
  simp only [readCons, Except.bind_eq_ok_iff, Except.ok.injEq, Prod.mk.injEq, Prod.exists]
  constructor
  · rintro ⟨x, t, hx, ys, rest', hys, rfl, rfl⟩
    exact ⟨x, t, ys, hx, hys, rfl⟩
  · rintro ⟨x, t, ys, hx, hys, rfl⟩
    exact ⟨x, t, hx, ys, rest, hys, rfl, rfl⟩

theorem readItems_succ_cases (fuel : Nat) (first : Bool) (s : List Symbol) :
    (∃ r, (∀ item, readItems item (fuel + 1) first s = r) ∧ ∀ vs rest, r = .ok (vs, rest) → vs = []) ∨
      ∃ t, ∀ item, readItems item (fuel + 1) first s = readCons item (readItems item fuel false) t := by
  have herror (e : ReadError) (vs : List Json) (rest : List Symbol) (h : Except.error e = .ok (vs, rest)) : vs = [] := by
    cases h
  simp only [readItems]
  cases skipBlanks s with
  | nil => exact .inl ⟨_, fun _ => rfl, herror _⟩
  | cons c tail =>
    by_cases hclose : c = some ']'
    · simp only [if_pos hclose]
      exact .inl ⟨_, fun _ => rfl, fun vs rest h => by cases h; rfl⟩
    simp only [if_neg hclose]
    by_cases hfirst : first = true
    · simp only [if_pos hfirst]
      exact .inr ⟨_, fun _ => rfl⟩
    simp only [if_neg hfirst]
    by_cases hcomma : c = some ','
    · simp only [if_pos hcomma]
      by_cases htrailing : (skipBlanks tail).head? = some (some ']')
      · simp only [if_pos htrailing]
        exact .inl ⟨_, fun _ => rfl, herror _⟩
      · simp only [if_neg htrailing]
        exact .inr ⟨_, fun _ => rfl⟩
    · simp only [if_neg hcomma]
      exact .inl ⟨_, fun _ => rfl, herror _⟩

theorem readMember_cases (s : List Symbol) :
    (∃ e, ∀ item, readMember item s = .error e) ∨
      ∃ name t, ∀ item, readMember item s = (item t >>= fun p => .ok ((name, p.1), p.2)) := by
  unfold readMember
  split
  · rename_i tail
    cases readString tail with
    | error e => exact .inl ⟨e, fun _ => rfl⟩
    | ok p =>
      simp only [Except.ok_bind]
      cases skipBlanks p.2 with
      | nil => exact .inl ⟨_, fun _ => rfl⟩
      | cons c rest =>
        by_cases hcolon : c = some ':'
        · simp only [if_pos hcolon]
          exact .inr ⟨p.1, rest, fun _ => rfl⟩
        · simp only [if_neg hcolon]
          exact .inl ⟨_, fun _ => rfl⟩
  · exact .inl ⟨_, fun _ => rfl⟩

theorem readMembers_succ_cases (fuel : Nat) (first : Bool) (s : List Symbol) :
    (∃ r, (∀ item, readMembers item (fuel + 1) first s = r) ∧ ∀ ms rest, r = .ok (ms, rest) → ms = []) ∨
      ∃ t, ∀ item, readMembers item (fuel + 1) first s = readCons (readMember item) (readMembers item fuel false) t := by
  have herror (e : ReadError) (ms : List (String × Json)) (rest : List Symbol)
      (h : Except.error e = .ok (ms, rest)) : ms = [] := by
    cases h
  simp only [readMembers]
  cases skipBlanks s with
  | nil => exact .inl ⟨_, fun _ => rfl, herror _⟩
  | cons c tail =>
    by_cases hclose : c = some '}'
    · simp only [if_pos hclose]
      exact .inl ⟨_, fun _ => rfl, fun ms rest h => by cases h; rfl⟩
    simp only [if_neg hclose]
    by_cases hfirst : first = true
    · simp only [if_pos hfirst]
      exact .inr ⟨_, fun _ => rfl⟩
    simp only [if_neg hfirst]
    by_cases hcomma : c = some ','
    · simp only [if_pos hcomma]
      cases skipBlanks tail with
      | nil => exact .inl ⟨_, fun _ => rfl, herror _⟩
      | cons d tail' =>
        by_cases htrailing : d = some '}'
        · simp only [if_pos htrailing]
          exact .inl ⟨_, fun _ => rfl, herror _⟩
        · simp only [if_neg htrailing]
          exact .inr ⟨_, fun _ => rfl⟩
    · simp only [if_neg hcomma]
      exact .inl ⟨_, fun _ => rfl, herror _⟩

/-- The second reader reads what the first one reads. -/
def Extends (item item' : Reading Json) : Prop :=
  ∀ {s v rest}, item s = .ok (v, rest) → item' s = .ok (v, rest)

theorem readItems_mono (h : Extends item item') {fuel : Nat} {first : Bool} {s rest : List Symbol} {vs : List Json}
    (hr : readItems item fuel first s = .ok (vs, rest)) : readItems item' fuel first s = .ok (vs, rest) := by
  induction fuel generalizing first s vs rest with
  | zero => cases hr
  | succ fuel ih =>
    rcases readItems_succ_cases fuel first s with ⟨r, hend, -⟩ | ⟨t, ht⟩
    · rwa [hend] at hr ⊢
    · rw [ht] at hr ⊢
      obtain ⟨v, t', us, hv, hus, rfl⟩ := readCons_eq_ok_iff.1 hr
      exact readCons_eq_ok_iff.2 ⟨v, t', us, h hv, ih hus, rfl⟩

theorem readMember_mono (h : Extends item item') {s rest : List Symbol} {m : String × Json}
    (hr : readMember item s = .ok (m, rest)) : readMember item' s = .ok (m, rest) := by
  rcases readMember_cases s with ⟨e, he⟩ | ⟨name, t, ht⟩
  · rw [he] at hr
    cases hr
  · rw [ht] at hr ⊢
    obtain ⟨⟨v, t'⟩, hv, hr⟩ := Except.bind_eq_ok_iff.1 hr
    exact Except.bind_eq_ok_iff.2 ⟨_, h hv, hr⟩

theorem readMembers_mono (h : Extends item item') {fuel : Nat} {first : Bool} {s rest : List Symbol}
    {ms : List (String × Json)} (hr : readMembers item fuel first s = .ok (ms, rest)) :
    readMembers item' fuel first s = .ok (ms, rest) := by
  induction fuel generalizing first s ms rest with
  | zero => cases hr
  | succ fuel ih =>
    rcases readMembers_succ_cases fuel first s with ⟨r, hend, -⟩ | ⟨t, ht⟩
    · rwa [hend] at hr ⊢
    · rw [ht] at hr ⊢
      obtain ⟨m, t', ns, hm, hns, rfl⟩ := readCons_eq_ok_iff.1 hr
      exact readCons_eq_ok_iff.2 ⟨m, t', ns, readMember_mono h hm, ih hns, rfl⟩

theorem readItems_forall (h : ∀ {s v rest}, item s = .ok (v, rest) → P v) {fuel : Nat} {first : Bool}
    {s rest : List Symbol} {vs : List Json} (hr : readItems item fuel first s = .ok (vs, rest)) : ∀ v ∈ vs, P v := by
  induction fuel generalizing first s vs rest with
  | zero => cases hr
  | succ fuel ih =>
    rcases readItems_succ_cases fuel first s with ⟨r, hend, hnil⟩ | ⟨t, ht⟩
    · simp [hnil vs rest (hend item ▸ hr)]
    · rw [ht] at hr
      obtain ⟨v, t', us, hv, hus, rfl⟩ := readCons_eq_ok_iff.1 hr
      exact List.forall_mem_cons.2 ⟨h hv, ih hus⟩

theorem readMember_forall (h : ∀ {s v rest}, item s = .ok (v, rest) → P v) {s rest : List Symbol} {m : String × Json}
    (hr : readMember item s = .ok (m, rest)) : P m.2 := by
  rcases readMember_cases s with ⟨e, he⟩ | ⟨name, t, ht⟩
  · rw [he] at hr
    cases hr
  · rw [ht] at hr
    obtain ⟨⟨v, t'⟩, hv, hr⟩ := Except.bind_eq_ok_iff.1 hr
    cases hr
    exact h hv

theorem readMembers_forall (h : ∀ {s v rest}, item s = .ok (v, rest) → P v) {fuel : Nat} {first : Bool}
    {s rest : List Symbol} {ms : List (String × Json)} (hr : readMembers item fuel first s = .ok (ms, rest)) :
    ∀ m ∈ ms, P m.2 := by
  induction fuel generalizing first s ms rest with
  | zero => cases hr
  | succ fuel ih =>
    rcases readMembers_succ_cases fuel first s with ⟨r, hend, hnil⟩ | ⟨t, ht⟩
    · simp [hnil ms rest (hend item ▸ hr)]
    · rw [ht] at hr
      obtain ⟨m, t', ns, hm, hns, rfl⟩ := readCons_eq_ok_iff.1 hr
      exact List.forall_mem_cons.2 ⟨readMember_forall h hm, ih hns⟩

end Readers

/-! ## Values -/

/-- What a reader reads without arrays and objects, it reads with them. -/
theorem readValueWith_of_none {fuel : Nat} (item : Reading Json) {s rest : List Symbol} {v : Json}
    (hr : readValueWith fuel none s = .ok (v, rest)) : readValueWith fuel (some item) s = .ok (v, rest) := by
  unfold readValueWith at hr ⊢
  split at hr
  all_goals first
    | exact hr
    | cases hr

theorem readValueWith_mono {fuel : Nat} {item item' : Reading Json} (h : Extends item item') {s rest : List Symbol}
    {v : Json} (hr : readValueWith fuel (some item) s = .ok (v, rest)) :
    readValueWith fuel (some item') s = .ok (v, rest) := by
  unfold readValueWith at hr ⊢
  split at hr
  case h_6 =>
    obtain ⟨⟨items, t⟩, hi, hr⟩ := Except.bind_eq_ok_iff.1 hr
    exact Except.bind_eq_ok_iff.2 ⟨_, readItems_mono h hi, hr⟩
  case h_7 =>
    obtain ⟨⟨members, t⟩, hm, hr⟩ := Except.bind_eq_ok_iff.1 hr
    exact Except.bind_eq_ok_iff.2 ⟨_, readMembers_mono h hm, hr⟩
  all_goals exact hr

theorem readValue_succ (fuel levels : Nat) : Extends (readValue fuel levels) (readValue fuel (levels + 1)) := by
  induction levels with
  | zero => exact readValueWith_of_none _
  | succ levels ih => exact readValueWith_mono ih

theorem readValue_mono (fuel : Nat) {levels levels' : Nat} (hl : levels ≤ levels') :
    Extends (readValue fuel levels) (readValue fuel levels') := by
  obtain ⟨more, rfl⟩ := Nat.exists_eq_add_of_le hl
  induction more with
  | zero => exact id
  | succ more ih => exact fun hr => readValue_succ fuel _ (ih (Nat.le_add_right levels more) hr)

/-- A text that is read with some levels is read with more. -/
theorem readWithin_mono {levels levels' : Nat} (hl : levels ≤ levels') {s : List Symbol} {v : Json}
    (h : readWithin levels s = .ok v) : readWithin levels' s = .ok v := by
  obtain ⟨⟨u, rest⟩, hr, h⟩ := Except.bind_eq_ok_iff.1 h
  exact Except.bind_eq_ok_iff.2 ⟨_, readValue_mono _ hl hr, h⟩

/-! ## What is read -/

theorem readWord_eq {word : List Char} {u v : Json} {s rest : List Symbol} (h : readWord word u s = .ok (v, rest)) :
    v = u := by
  induction word generalizing s with
  | nil =>
    rw [readWord] at h
    cases h
    rfl
  | cons c word ih =>
    cases s with
    | nil => cases h
    | cons d s =>
      rw [readWord] at h
      split at h
      · exact ih h
      · cases h

/-- Neither an array nor an object. -/
def IsScalar (v : Json) : Prop := (∀ items, v ≠ .array items) ∧ ∀ members, v ≠ .object members

theorem isScalar_readNumber {v : Json} {s rest : List Symbol} (h : readNumber s = .ok (v, rest)) : v.IsScalar := by
  obtain ⟨⟨n, t⟩, -, h⟩ := Except.bind_eq_ok_iff.1 h
  dsimp only at h
  split at h
  · rename_i u hu
    cases h
    unfold Numeral.value? at hu
    split at hu
    · cases hu
      exact ⟨nofun, nofun⟩
    · obtain ⟨x, -, rfl⟩ := Option.map_eq_some_iff.1 hu
      exact ⟨nofun, nofun⟩
  · cases h

/-- What is read is a scalar, or made of what the reader for items and members reads; without such a reader it is a
scalar. -/
theorem readValueWith_forall {P Q : Json → Prop} {fuel : Nat} {item? : Option (Reading Json)}
    (scalar : ∀ v, v.IsScalar → Q v)
    (array : item? ≠ none → ∀ items, (∀ v ∈ items, P v) → Q (.array items))
    (object : item? ≠ none → ∀ members, (∀ m ∈ members, P m.2) → Q (.object (Fields.ofList members)))
    (hitem : ∀ item, item? = some item → ∀ {s : List Symbol} {v : Json} {rest : List Symbol},
      item s = .ok (v, rest) → P v)
    {s rest : List Symbol} {v : Json} (hr : readValueWith fuel item? s = .ok (v, rest)) : Q v := by
  unfold readValueWith at hr
  split at hr
  case h_1 | h_9 => cases hr
  case h_2 | h_3 | h_4 =>
    rw [readWord_eq hr]
    exact scalar _ ⟨nofun, nofun⟩
  case h_5 =>
    obtain ⟨⟨text, t⟩, -, hr⟩ := Except.bind_eq_ok_iff.1 hr
    cases hr
    exact scalar _ ⟨nofun, nofun⟩
  case h_6 =>
    split at hr
    · cases hr
    · rename_i item
      obtain ⟨⟨items, t⟩, hi, hr⟩ := Except.bind_eq_ok_iff.1 hr
      cases hr
      exact array nofun items (readItems_forall (hitem item rfl) hi)
  case h_7 =>
    split at hr
    · cases hr
    · rename_i item
      obtain ⟨⟨members, t⟩, hm, hr⟩ := Except.bind_eq_ok_iff.1 hr
      cases hr
      exact object nofun members (readMembers_forall (hitem item rfl) hm)
  case h_8 =>
    split at hr
    · exact scalar _ (isScalar_readNumber hr)
    · cases hr

theorem IsScalar.depth {v : Json} (h : v.IsScalar) : v.depth = 0 := by
  cases v with
  | array items => exact absurd rfl (h.1 items)
  | object members => exact absurd rfl (h.2 members)
  | _ => rfl

theorem IsScalar.wellFormed {v : Json} (h : v.IsScalar) : v.WellFormed := by
  cases v with
  | array items => exact absurd rfl (h.1 items)
  | object members => exact absurd rfl (h.2 members)
  | _ => trivial

/-- What is read nests no deeper than the levels allow. -/
theorem depth_readValue {fuel levels : Nat} {s rest : List Symbol} {v : Json}
    (hr : readValue fuel levels s = .ok (v, rest)) : v.depth ≤ levels := by
  induction levels generalizing s v rest with
  | zero =>
    refine readValueWith_forall (P := fun _ => True) (Q := fun v => v.depth ≤ 0) ?_ ?_ ?_ ?_ hr
    · exact fun v hv => Nat.le_of_eq hv.depth
    · exact fun h => absurd rfl h
    · exact fun h => absurd rfl h
    · exact fun _ _ _ _ _ _ => trivial
  | succ levels ih =>
    refine readValueWith_forall (P := fun v => v.depth ≤ levels) (Q := fun v => v.depth ≤ levels + 1) ?_ ?_ ?_ ?_ hr
    · exact fun v hv => hv.depth ▸ Nat.zero_le _
    · exact fun _ items hi => Nat.succ_le_succ (depthOfItems_le_iff.2 hi)
    · intro _ members hm
      exact Nat.succ_le_succ (depthOfMembers_le_iff.2 fun m hmem => hm m (Fields.mem_of_mem_ofList hmem))
    · intro item h s v rest hr
      cases h
      exact ih hr

/-- What is read has distinct names, whatever the names in the text. -/
theorem wellFormed_readValue {fuel levels : Nat} {s rest : List Symbol} {v : Json}
    (hr : readValue fuel levels s = .ok (v, rest)) : v.WellFormed := by
  have array (items : List Json) (hi : ∀ v ∈ items, v.WellFormed) : (Json.array items).WellFormed :=
    wellFormedItems_iff.2 hi
  have object (members : List (String × Json)) (hm : ∀ m ∈ members, m.2.WellFormed) :
      (Json.object (Fields.ofList members)).WellFormed :=
    ⟨.ofList members, wellFormedMembers_iff.2 fun m hmem => hm m (Fields.mem_of_mem_ofList hmem)⟩
  induction levels generalizing s v rest with
  | zero =>
    refine readValueWith_forall (fun _ => IsScalar.wellFormed) (fun _ => array) (fun _ => object) ?_ hr
    exact fun _ h => by cases h
  | succ levels ih =>
    refine readValueWith_forall (fun _ => IsScalar.wellFormed) (fun _ => array) (fun _ => object) ?_ hr
    intro item h s v rest hr
    cases h
    exact ih hr

/-- A text that is read stands for a value with distinct names, which nests no deeper than the levels allow. -/
theorem of_readWithin {levels : Nat} {s : List Symbol} {v : Json} (h : readWithin levels s = .ok v) :
    v.WellFormed ∧ v.depth ≤ levels := by
  obtain ⟨⟨u, rest⟩, hread, h⟩ := Except.bind_eq_ok_iff.1 h
  dsimp only at h
  split at h
  · cases h
    exact ⟨wellFormed_readValue hread, depth_readValue hread⟩
  · cases h

/-! ## Texts of values -/

/-- A value whose text says what it is: its names are distinct and its doubles are read back. -/
structure Legible (v : Json) : Prop where
  wellFormed : v.WellFormed
  doubles : ∀ x, .double x ∈ v.parts → x.ReadsBack

/-- **Reading within levels**: a text that was written for a value is read just if the levels are enough for it, and then
as that value. -/
theorem Legible.readWithin_write_eq_ok_iff {v u : Json} (h : v.Legible) {levels : Nat} :
    readWithin levels (symbolsOf (write v)) = .ok u ↔ u = v ∧ v.depth ≤ levels := by
  constructor
  · intro hr
    have hu := readWithin_mono (Nat.le_max_left levels v.depth) hr
    rw [readWithin_write h.wellFormed h.doubles (Nat.le_max_right levels v.depth)] at hu
    cases hu
    exact ⟨rfl, (of_readWithin hr).2⟩
  · rintro ⟨rfl, hl⟩
    exact readWithin_write h.wellFormed h.doubles hl

end Chronicle.Json
