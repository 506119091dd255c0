import Chronicle.Proofs.Json.Levels

/-!
# Texts that nest too deep

The levels decide about nesting and nothing else: a reader with fewer levels does what one with more levels does, be it
a value or an error, unless it finds the text too deep (`readWithin_limited`).
-/

namespace Chronicle.Json

open Text (Symbol)

/-- The first result is the second one, unless the first reader found the text too deep. -/
def Limited {α : Type} (x y : Except ReadError α) : Prop := x = .error .tooDeep ∨ x = y

section

variable {α β : Type} {x y z : Except ReadError α}

theorem Limited.refl (x : Except ReadError α) : Limited x x := .inr rfl

theorem Limited.trans (h : Limited x y) (h' : Limited y z) : Limited x z := by
  rcases h with h | rfl
  · exact .inl h
  · exact h'

theorem Limited.bind {f g : α → Except ReadError β} (h : Limited x y) (hf : ∀ a, Limited (f a) (g a)) :
    Limited (x >>= f) (y >>= g) := by
  rcases h with rfl | rfl
  · exact .inl rfl
  · cases x with
    | error e => exact .refl _
    | ok a => exact hf a

end

section Readers

variable {item item' : Reading Json} (h : ∀ s, Limited (item s) (item' s))
include h

theorem readItems_limited (fuel : Nat) (first : Bool) (s : List Symbol) :
    Limited (readItems item fuel first s) (readItems item' fuel first s) := by
  induction fuel generalizing first s with
  | zero => exact .refl _
  | succ fuel ih =>
    rcases readItems_succ_cases fuel first s with ⟨r, hend, -⟩ | ⟨t, ht⟩
    · rw [hend, hend]
      exact .refl r
    · rw [ht, ht]
      exact (h t).bind fun p => (ih false p.2).bind fun q => .refl _

theorem readMember_limited (s : List Symbol) : Limited (readMember item s) (readMember item' s) := by
  rcases readMember_cases s with ⟨e, he⟩ | ⟨name, t, ht⟩
  · rw [he, he]
    exact .refl _
  · rw [ht, ht]
    exact (h t).bind fun p => .refl _

theorem readMembers_limited (fuel : Nat) (first : Bool) (s : List Symbol) :
    Limited (readMembers item fuel first s) (readMembers item' fuel first s) := by
  induction fuel generalizing first s with
  | zero => exact .refl _
  | succ fuel ih =>
    rcases readMembers_succ_cases fuel first s with ⟨r, hend, -⟩ | ⟨t, ht⟩
    · rw [hend, hend]
      exact .refl r
    · rw [ht, ht]
      exact (readMember_limited h t).bind fun p => (ih false p.2).bind fun q => .refl _

theorem readValueWith_limited (fuel : Nat) (s : List Symbol) :
    Limited (readValueWith fuel (some item) s) (readValueWith fuel (some item') s) := by
  unfold readValueWith
  split
  case h_6 rest _ => exact (readItems_limited h fuel true rest).bind fun p => .refl _
  case h_7 rest _ => exact (readMembers_limited h fuel true rest).bind fun p => .refl _
  all_goals exact .refl _

end Readers

/-- Without a reader for items, arrays and objects are too deep. -/
theorem readValueWith_none_limited (fuel : Nat) (item : Reading Json) (s : List Symbol) :
    Limited (readValueWith fuel none s) (readValueWith fuel (some item) s) := by
  unfold readValueWith
  split
  case h_6 | h_7 => exact .inl rfl
  all_goals exact .refl _

theorem readValue_limited_succ (fuel levels : Nat) (s : List Symbol) :
    Limited (readValue fuel levels s) (readValue fuel (levels + 1) s) := by
  induction levels generalizing s with
  | zero => exact readValueWith_none_limited fuel _ s
  | succ levels ih => exact readValueWith_limited ih fuel s

theorem readValue_limited (fuel : Nat) {levels levels' : Nat} (hl : levels ≤ levels') (s : List Symbol) :
    Limited (readValue fuel levels s) (readValue fuel levels' s) := by
  induction hl with
  | refl => exact .refl _
  | step _ ih => exact ih.trans (readValue_limited_succ fuel _ s)

/-- **Levels**: whatever a text is, a reader with fewer levels does what one with more levels does, unless it finds the
text too deep. -/
theorem readWithin_limited {levels levels' : Nat} (hl : levels ≤ levels') (s : List Symbol) :
    Limited (readWithin levels s) (readWithin levels' s) :=
  (readValue_limited s.length hl s).bind fun _ => .refl _

end Chronicle.Json
