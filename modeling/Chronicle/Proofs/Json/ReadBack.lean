import Chronicle.Proofs.Json.Numerals
import Chronicle.Proofs.Json.Parts
import Chronicle.Proofs.Json.Strings

/-!
# Reading back what is written

The text of a well-formed value is read back as that value (`readWithin_write`), if its doubles are and it does not
nest deeper than the reader allows. The induction is on the value; `readItems_write` and `readMembers_write` take what
it gives for items and members to arrays and objects.
-/

namespace Chronicle.Json

open Text (Symbol isDigit symbolsOf symbolsOf_cons symbolsOf_append)

/-- The first character of a text: no blank and no closing bracket or brace. -/
def Opens (text : List Char) : Prop :=
  ∃ c tail, text = c :: tail ∧ isBlank (some c) = false ∧ c ≠ ']' ∧ c ≠ '}'

theorem isBlank_of_number {c : Char} (h : c = '-' ∨ isDigit c = true) : isBlank (some c) = false := by
  simp only [isBlank, Bool.or_eq_false_iff, decide_eq_false_iff_not, Option.some.injEq]
  refine ⟨⟨⟨?_, ?_⟩, ?_⟩, ?_⟩ <;> (rintro rfl; revert h; decide)

theorem opens_of_readNumber {text : List Char} {r : List Symbol} {v : Json}
    (h : readNumber (symbolsOf text) = .ok (v, r)) : Opens text := by
  obtain ⟨c, tail, hs, hc⟩ := head_of_readNumber h
  cases text with
  | nil => cases hs
  | cons d text =>
    cases hs
    refine ⟨c, text, rfl, isBlank_of_number hc, ?_, ?_⟩ <;> (rintro rfl; revert hc; decide)

theorem opens_write {v : Json} (h : ∀ x, .double x = v → x.ReadsBack) : Opens (write v) := by
  cases v with
  | null => exact ⟨'n', _, rfl, by decide⟩
  | bool b => cases b <;> exact ⟨_, _, rfl, by decide⟩
  | integer n =>
    have := readNumber_integer n .nil
    rw [List.append_nil] at this
    exact opens_of_readNumber this
  | double x => exact opens_of_readNumber (h x rfl)
  | string s => exact ⟨'"', _, rfl, by decide⟩
  | array items => cases items <;> exact ⟨'[', _, rfl, by decide⟩
  | object members => cases members <;> exact ⟨'{', _, rfl, by decide⟩

theorem skipBlanks_of_opens {text : List Char} (h : Opens text) (rest : List Symbol) :
    skipBlanks (symbolsOf text ++ rest) = symbolsOf text ++ rest := by
  obtain ⟨c, tail, rfl, hc, -⟩ := h
  simp [skipBlanks, symbolsOf, hc]

theorem skipBlanks_cons {c : Char} (rest : List Symbol) (h : isBlank (some c) = false) :
    skipBlanks (some c :: rest) = some c :: rest := by
  simp [skipBlanks, h]

/-! ## Items and members -/

section Containers

variable {item : Reading Json}

/-- The reader reads each of some values back, in front of anything that does not go on with a number. -/
def ReadsValues (item : Reading Json) (values : List Json) : Prop :=
  ∀ v ∈ values, Opens (write v) ∧ ∀ rest, NumberEnds rest → item (symbolsOf (write v) ++ rest) = .ok (v, rest)

theorem ReadsValues.head {v : Json} {values : List Json} (h : ReadsValues item (v :: values)) :
    Opens (write v) ∧ ∀ rest, NumberEnds rest → item (symbolsOf (write v) ++ rest) = .ok (v, rest) :=
  h v List.mem_cons_self

theorem ReadsValues.tail {v : Json} {values : List Json} (h : ReadsValues item (v :: values)) :
    ReadsValues item values := fun u hu => h u (List.mem_cons_of_mem v hu)

theorem numberEnds_writeItems (items : List Json) (rest : List Symbol) :
    NumberEnds (symbolsOf (writeItems items) ++ rest) := by
  cases items with
  | nil => exact .cons _ (.inr (.inl rfl))
  | cons v items => exact .cons _ (.inl rfl)

theorem numberEnds_writeMembers (members : List (String × Json)) (rest : List Symbol) :
    NumberEnds (symbolsOf (writeMembers members) ++ rest) := by
  cases members with
  | nil => exact .cons _ (.inr (.inr rfl))
  | cons m members => exact .cons _ (.inl rfl)

/-- The items behind the first are read back, with the closing bracket. -/
theorem readItems_writeItems {items : List Json} (h : ReadsValues item items) {fuel : Nat}
    (hf : items.length < fuel) (rest : List Symbol) :
    readItems item fuel false (symbolsOf (writeItems items) ++ rest) = .ok (items, rest) := by
  induction items generalizing fuel with
  | nil =>
    obtain ⟨fuel, rfl⟩ := Nat.exists_eq_add_one.2 (Nat.zero_lt_of_lt hf)
    rw [writeItems, symbolsOf_cons, List.cons_append, readItems, skipBlanks_cons _ (by decide)]
    rfl
  | cons v items ih =>
    obtain ⟨fuel, rfl⟩ := Nat.exists_eq_add_one.2 (Nat.zero_lt_of_lt hf)
    obtain ⟨hv, hi⟩ := h.head
    obtain ⟨c, tail, hw, hb, hc, -⟩ := id hv
    rw [writeItems, symbolsOf_cons, symbolsOf_append, List.cons_append, List.append_assoc, readItems,
      skipBlanks_cons _ (by decide)]
    dsimp only
    rw [if_neg (by decide), if_neg (by decide), if_pos rfl, skipBlanks_of_opens hv,
      hi _ (numberEnds_writeItems items rest)]
    rw [if_neg (by rw [hw]; simpa [symbolsOf] using hc)]
    rw [Except.ok_bind, ih h.tail (by simpa using hf)]
    rfl

/-- A member is read back: its name, the colon and its value. -/
theorem readMember_write {m : String × Json} (h : ReadsValues item [m.2]) {rest : List Symbol} (hr : NumberEnds rest) :
    readMember item (symbolsOf (quoted m.1 ++ ':' :: write m.2) ++ rest) = .ok (m, rest) := by
  have hq : symbolsOf (quoted m.1 ++ ':' :: write m.2) ++ rest = some '"' ::
      (symbolsOf (m.1.toList.flatMap escape ++ ['"']) ++ (some ':' :: (symbolsOf (write m.2) ++ rest))) := by
    simp [quoted, symbolsOf]
  have hcolon : isBlank (some ':') = false := by decide
  rw [hq]
  simp only [readMember, readString_quoted, Except.ok_bind, skipBlanks_cons _ hcolon, ↓reduceIte, h.head.2 rest hr]
  rfl

/-- The members behind the first are read back, with the closing brace. -/
theorem readMembers_writeMembers {members : List (String × Json)} (h : ReadsValues item (members.map Prod.snd))
    {fuel : Nat} (hf : members.length < fuel) (rest : List Symbol) :
    readMembers item fuel false (symbolsOf (writeMembers members) ++ rest) = .ok (members, rest) := by
  induction members generalizing fuel with
  | nil =>
    obtain ⟨fuel, rfl⟩ := Nat.exists_eq_add_one.2 (Nat.zero_lt_of_lt hf)
    rw [writeMembers, symbolsOf_cons, List.cons_append, readMembers, skipBlanks_cons _ (by decide)]
    rfl
  | cons m members ih =>
    obtain ⟨fuel, rfl⟩ := Nat.exists_eq_add_one.2 (Nat.zero_lt_of_lt hf)
    have hm : ReadsValues item [m.2] := fun v hv => h v (by simp at hv; simp [hv])
    have he : symbolsOf (writeMembers (m :: members)) ++ rest =
        some ',' :: (symbolsOf (quoted m.1 ++ ':' :: write m.2) ++ (symbolsOf (writeMembers members) ++ rest)) := by
      simp [writeMembers, symbolsOf]
    have ho : Opens (quoted m.1 ++ ':' :: write m.2) := ⟨'"', _, rfl, by decide⟩
    rw [he, readMembers, skipBlanks_cons _ (by decide)]
    dsimp only
    rw [if_neg (by decide), if_neg (by decide), if_pos rfl, skipBlanks_of_opens ho]
    -- the name's quote is seen before the member is read
    have hmem := readMember_write hm (numberEnds_writeMembers members rest)
    simp only [quoted, List.cons_append, symbolsOf_cons] at hmem ⊢
    rw [if_neg (by decide), hmem, Except.ok_bind, ih h.tail (by simpa using hf)]
    rfl

/-- The items of an array are read back from behind its opening bracket. -/
theorem readItems_write {v : Json} {items : List Json} (h : ReadsValues item (v :: items)) {fuel : Nat}
    (hf : items.length + 1 < fuel) (rest : List Symbol) :
    readItems item fuel true (symbolsOf (write v ++ writeItems items) ++ rest) = .ok (v :: items, rest) := by
  obtain ⟨fuel, rfl⟩ := Nat.exists_eq_add_one.2 (Nat.zero_lt_of_lt hf)
  obtain ⟨hv, hi⟩ := h.head
  obtain ⟨c, tail, hw, -, hc, -⟩ := id hv
  have hi := hi _ (numberEnds_writeItems items rest)
  rw [symbolsOf_append, List.append_assoc, readItems, skipBlanks_of_opens hv]
  rw [hw, symbolsOf_cons, List.cons_append] at hi ⊢
  dsimp only
  rw [if_neg (by simpa using hc), if_pos rfl, hi, Except.ok_bind, readItems_writeItems h.tail (by omega)]
  rfl

/-- The members of an object are read back from behind its opening brace. -/
theorem readMembers_write {m : String × Json} {members : List (String × Json)}
    (h : ReadsValues item ((m :: members).map Prod.snd)) {fuel : Nat} (hf : members.length + 1 < fuel)
    (rest : List Symbol) :
    readMembers item fuel true (symbolsOf (quoted m.1 ++ ':' :: (write m.2 ++ writeMembers members)) ++ rest) =
    .ok (m :: members, rest) := by
  obtain ⟨fuel, rfl⟩ := Nat.exists_eq_add_one.2 (Nat.zero_lt_of_lt hf)
  have hm : ReadsValues item [m.2] := fun v hv => h v (by simp at hv; simp [hv])
  have he : symbolsOf (quoted m.1 ++ ':' :: (write m.2 ++ writeMembers members)) ++ rest =
      symbolsOf (quoted m.1 ++ ':' :: write m.2) ++ (symbolsOf (writeMembers members) ++ rest) := by
    simp [symbolsOf]
  have ho : Opens (quoted m.1 ++ ':' :: write m.2) := ⟨'"', _, rfl, by decide⟩
  have hmem := readMember_write hm (numberEnds_writeMembers members rest)
  rw [he, readMembers, skipBlanks_of_opens ho]
  simp only [quoted, List.cons_append, symbolsOf_cons] at hmem ⊢
  rw [if_neg (by decide), if_pos trivial, hmem, Except.ok_bind, readMembers_writeMembers h.tail (by omega)]
  rfl

end Containers

/-! ## Fuel -/

theorem length_lt_writeItems (items : List Json) :
    items.length < (writeItems items).length ∧ ∀ v ∈ items, (write v).length ≤ (writeItems items).length := by
  induction items with
  | nil => simp [writeItems]
  | cons v items ih =>
    simp only [writeItems, List.length_cons, List.length_append, List.forall_mem_cons]
    refine ⟨by omega, by omega, fun u hu => ?_⟩
    have := ih.2 u hu
    omega

theorem length_lt_writeMembers (members : List (String × Json)) :
    members.length < (writeMembers members).length ∧
      ∀ m ∈ members, (write m.2).length ≤ (writeMembers members).length := by
  induction members with
  | nil => simp [writeMembers]
  | cons m members ih =>
    simp only [writeMembers, List.length_cons, List.length_append, List.forall_mem_cons]
    refine ⟨by omega, by omega, fun u hu => ?_⟩
    have := ih.2 u hu
    omega

/-- An array's text is longer than it has items, and as long as each of their texts. -/
theorem length_lt_write_array (items : List Json) : items.length < (write (.array items)).length ∧
    ∀ v ∈ items, (write v).length ≤ (write (.array items)).length := by
  cases items with
  | nil => simp [write]
  | cons v items =>
    have h := length_lt_writeItems items
    simp only [write, List.length_cons, List.length_append, List.forall_mem_cons]
    refine ⟨by omega, by omega, fun u hu => ?_⟩
    have := h.2 u hu
    omega

/-- An object's text is longer than it has members, and as long as each of their values' texts. -/
theorem length_lt_write_object (members : List (String × Json)) :
    members.length < (write (.object members)).length ∧
      ∀ m ∈ members, (write m.2).length ≤ (write (.object members)).length := by
  cases members with
  | nil => simp [write]
  | cons m members =>
    have h := length_lt_writeMembers members
    simp only [write, List.length_cons, List.length_append, List.forall_mem_cons]
    refine ⟨by omega, by omega, fun u hu => ?_⟩
    have := h.2 u hu
    omega

/-! ## Values -/

/-- Where a number starts, a number is read. -/
theorem readValueWith_number {fuel : Nat} {item? : Option (Reading Json)} {s : List Symbol} {v : Json}
    {r : List Symbol} (h : readNumber s = .ok (v, r)) : readValueWith fuel item? s = .ok (v, r) := by
  obtain ⟨c, tail, rfl, hc⟩ := head_of_readNumber h
  unfold readValueWith
  rw [skipBlanks_cons tail (isBlank_of_number hc)]
  split
  case h_8 heq =>
    cases heq
    rw [if_pos hc]
    exact h
  -- no other value starts like a number
  all_goals
    rename_i heq
    cases heq
  all_goals exact absurd hc (by decide)

theorem readValueWith_array (fuel : Nat) (item : Reading Json) (rest : List Symbol) :
    readValueWith fuel (some item) (some '[' :: rest) =
    readItems item fuel true rest >>= fun p => .ok (.array p.1, p.2) := rfl

theorem readValueWith_object (fuel : Nat) (item : Reading Json) (rest : List Symbol) :
    readValueWith fuel (some item) (some '{' :: rest) =
    readMembers item fuel true rest >>= fun p => .ok (.object (Fields.ofList p.1), p.2) := rfl

/-- A value is read back if the reader's levels are enough for it, in front of anything that does not go on with a
number. -/
theorem readValue_write (fuel : Nat) {v : Json} (hw : v.WellFormed) (hd : ∀ x, .double x ∈ v.parts → x.ReadsBack)
    (hf : (write v).length ≤ fuel) {levels : Nat} (hl : v.depth ≤ levels) {rest : List Symbol}
    (hr : NumberEnds rest) : readValue fuel levels (symbolsOf (write v) ++ rest) = .ok (v, rest) := by
  induction v using induct generalizing levels rest with
  | null => cases levels <;> rfl
  | bool b => cases levels <;> cases b <;> rfl
  | integer n =>
    have h := readNumber_integer n hr
    cases levels <;> exact readValueWith_number h
  | double x =>
    have h := readNumber_append hr (hd x (self_mem_parts _))
    cases levels <;> exact readValueWith_number h
  | string s =>
    have h : ∀ item?, readValueWith fuel item? (symbolsOf (quoted s) ++ rest) = .ok (.string s, rest) := by
      intro item?
      rw [quoted, symbolsOf_cons, List.cons_append, readValueWith, skipBlanks_cons _ (by decide)]
      simp only [readString_quoted]
      rfl
    cases levels <;> exact h _
  | array items ih =>
    obtain ⟨levels, rfl⟩ : ∃ k, levels = k + 1 := ⟨levels - 1, by simp [depth] at hl; omega⟩
    obtain ⟨hlen, hlens⟩ := length_lt_write_array items
    have hi : ReadsValues (readValue fuel levels) items := fun v hv =>
      ⟨opens_write fun x hx => hd x (mem_parts_array hv (hx ▸ self_mem_parts v)),
        fun rest hr => ih v hv (wellFormedItems_iff.1 hw v hv) (fun x hx => hd x (mem_parts_array hv hx))
          (Nat.le_trans (hlens v hv) hf) (depthOfItems_le_iff.1 (Nat.le_of_succ_le_succ hl) v hv) hr⟩
    cases items with
    | nil =>
      obtain ⟨fuel, rfl⟩ : ∃ k, fuel = k + 1 := ⟨fuel - 1, by simp [write] at hf; omega⟩
      rfl
    | cons v items =>
      rw [write, symbolsOf_cons, List.cons_append, readValue, readValueWith_array,
        readItems_write hi (Nat.lt_of_lt_of_le hlen hf)]
      rfl
  | object members ih =>
    obtain ⟨levels, rfl⟩ : ∃ k, levels = k + 1 := ⟨levels - 1, by simp [depth] at hl; omega⟩
    obtain ⟨hlen, hlens⟩ := length_lt_write_object members
    have hi : ReadsValues (readValue fuel levels) (members.map Prod.snd) := by
      intro v hv
      obtain ⟨m, hm, rfl⟩ := List.mem_map.1 hv
      exact ⟨opens_write fun x hx => hd x (mem_parts_object hm (hx ▸ self_mem_parts m.2)),
        fun rest hr => ih m hm (wellFormedMembers_iff.1 hw.2 m hm) (fun x hx => hd x (mem_parts_object hm hx))
          (Nat.le_trans (hlens m hm) hf) (depthOfMembers_le_iff.1 (Nat.le_of_succ_le_succ hl) m hm) hr⟩
    cases members with
    | nil =>
      obtain ⟨fuel, rfl⟩ : ∃ k, fuel = k + 1 := ⟨fuel - 1, by simp [write] at hf; omega⟩
      rfl
    | cons m members =>
      rw [write, symbolsOf_cons, List.cons_append, readValue, readValueWith_object,
        readMembers_write hi (Nat.lt_of_lt_of_le hlen hf), Except.ok_bind, Fields.ofList_of_distinct hw.1]

/-- **Reading back**: a text that is written for a value is read as that value. -/
theorem readWithin_write {v : Json} (hw : v.WellFormed) (hd : ∀ x, .double x ∈ v.parts → x.ReadsBack) {levels : Nat}
    (hl : v.depth ≤ levels) : readWithin levels (symbolsOf (write v)) = .ok v := by
  have h := readValue_write (symbolsOf (write v)).length hw hd (by simp [symbolsOf]) hl .nil
  rw [List.append_nil] at h
  rw [readWithin, h]
  rfl

end Chronicle.Json
