import Chronicle.Proofs.Store.Positions
import Mathlib.Data.List.Basic

/-!
# Positions never go back

What a store of positions answers after any calls, in terms of the positions that were saved for a subscriber since it
was last deleted (`PositionCall.saves`). Of these one stands: the latest that is not below any before it
(`PositionCall.Stands`). One more save that is not below the others takes its place, and any other leaves it
(`PositionCall.Reflects.concat`); so each call keeps it the one that is loaded, and runs do (`Positions.reflects_run`).
-/

namespace Chronicle

/-- The position that is stored once `p` was saved: the one that was stored before, if it is above. -/
def Position.replacing (p : Position) : Option Position → Position
  | some q => if p.sequence < q.sequence then q else p
  | none => p

namespace Position

variable {p q : Position}

@[simp]
theorem replacing_none (p : Position) : p.replacing none = p := rfl

theorem replacing_of_lt (h : p.sequence < q.sequence) : p.replacing (some q) = q := if_pos h

theorem replacing_of_le (h : q.sequence ≤ p.sequence) : p.replacing (some q) = p := if_neg (Nat.not_lt.2 h)

end Position

/-- A call of a store of positions. -/
inductive PositionCall where
  | save (subscriber : String) (p : Position)
  | load (subscriber : String)
  | delete (subscriber : String)

namespace PositionCall

/-- Whose position a call is about. -/
def subscriber : PositionCall → String
  | .save x _ => x
  | .load x => x
  | .delete x => x

/-- What a call adds to the positions that were saved for a subscriber, or that it makes an end of them. -/
def record (x : String) (ps : List Position) : PositionCall → List Position
  | .save y p => if y = x then ps ++ [p] else ps
  | .load _ => ps
  | .delete y => if y = x then [] else ps

/-- The positions that were saved for a subscriber since it was last deleted, whether they were taken or ignored. -/
def saves (x : String) (calls : List PositionCall) : List Position := calls.foldl (record x) []

variable {ps : List Position} {p q : Position} {i j : Nat}

/-! ## The position that stands -/

/-- A save is not below any before it. -/
def Unsurpassed (ps : List Position) (i : Nat) (p : Position) : Prop :=
  ps[i]? = some p ∧ ∀ j < i, ∀ q, ps[j]? = some q → q.sequence ≤ p.sequence

/-- The position of the latest save that is not below any before it. -/
def Stands (ps : List Position) (p : Position) : Prop :=
  ∃ i, Unsurpassed ps i p ∧ ∀ j q, i < j → ¬Unsurpassed ps j q

theorem not_stands_nil (p : Position) : ¬Stands [] p := by
  rintro ⟨i, ⟨h, -⟩, -⟩
  cases h

/-- One position stands. -/
theorem Stands.unique (hp : Stands ps p) (hq : Stands ps q) : p = q := by
  obtain ⟨i, hi, hlast⟩ := hp
  obtain ⟨j, hj, hlast'⟩ := hq
  rcases Nat.lt_trichotomy i j with h | rfl | h
  · exact absurd hj (hlast j q h)
  · exact Option.some.inj (hi.1.symm.trans hj.1)
  · exact absurd hi (hlast' i p h)

theorem Unsurpassed.lt_length (h : Unsurpassed ps i p) : i < ps.length := (List.getElem?_eq_some_iff.1 h.1).1

/-- Later saves do not matter to earlier ones. -/
theorem unsurpassed_append_iff (h : i < ps.length) (qs : List Position) :
    Unsurpassed (ps ++ qs) i p ↔ Unsurpassed ps i p := by
  unfold Unsurpassed
  rw [List.getElem?_append_left h]
  refine and_congr_right fun _ => forall_congr' fun j => imp_congr_right fun hj => ?_
  rw [List.getElem?_append_left (Nat.lt_trans hj h)]

theorem unsurpassed_concat_iff : Unsurpassed (ps ++ [p]) ps.length q ↔ q = p ∧ ∀ r ∈ ps, r.sequence ≤ p.sequence := by
  unfold Unsurpassed
  rw [List.getElem?_concat_length, Option.some.injEq, eq_comm]
  refine and_congr_right ?_
  rintro rfl
  constructor
  · intro h r hr
    obtain ⟨j, hj⟩ := List.mem_iff_getElem?.1 hr
    have hlt := (List.getElem?_eq_some_iff.1 hj).1
    exact h j hlt r (by rw [List.getElem?_append_left hlt, hj])
  · intro h j hj r hr
    rw [List.getElem?_append_left hj] at hr
    exact h r (List.mem_of_getElem? hr)

/-- A save that is not below the others stands. -/
theorem stands_concat_of_le (h : ∀ r ∈ ps, r.sequence ≤ p.sequence) : Stands (ps ++ [p]) p := by
  refine ⟨ps.length, unsurpassed_concat_iff.2 ⟨rfl, h⟩, ?_⟩
  intro j q hj hq
  have hlt := hq.lt_length
  simp only [List.length_append, List.length_singleton] at hlt
  omega

/-- A save that is below another one does not change which one stands. -/
theorem Stands.concat_of_lt {r : Position} (h : Stands ps q) (hr : r ∈ ps) (hlt : p.sequence < r.sequence) :
    Stands (ps ++ [p]) q := by
  obtain ⟨i, hi, hlast⟩ := h
  refine ⟨i, (unsurpassed_append_iff hi.lt_length _).2 hi, ?_⟩
  intro j s hj hs
  have hjlt := hs.lt_length
  simp only [List.length_append, List.length_singleton] at hjlt
  rcases Nat.lt_or_ge j ps.length with hold | hnew
  · exact hlast j s hj ((unsurpassed_append_iff hold _).1 hs)
  · obtain rfl : j = ps.length := by omega
    have hle := (unsurpassed_concat_iff.1 hs).2 r hr
    omega

/-- A stored position reflects the saves: there is none just if there were none, and otherwise it is the one that stands
and none is above it. -/
inductive Reflects : List Position → Option Position → Prop
  | empty : Reflects [] none
  | latest {ps : List Position} {q : Position} (stands : Stands ps q) (greatest : ∀ r ∈ ps, r.sequence ≤ q.sequence)
      (mem : q ∈ ps) : Reflects ps (some q)

namespace Reflects

variable {stored : Option Position}

theorem eq_none_iff (h : Reflects ps stored) : stored = none ↔ ps = [] := by
  cases h with
  | empty => simp
  | latest stands greatest mem => simp [List.ne_nil_of_mem mem]

theorem eq_some_iff (h : Reflects ps stored) : stored = some q ↔ Stands ps q := by
  cases h with
  | empty => simp [not_stands_nil]
  | latest stands greatest mem =>
    rw [Option.some.injEq]
    constructor
    · rintro rfl
      exact stands
    · exact stands.unique

/-- The stored sequence is the greatest one. -/
theorem max?_eq (h : Reflects ps stored) : (ps.map Position.sequence).max? = stored.map Position.sequence := by
  cases h with
  | empty => rfl
  | latest stands greatest mem =>
    rw [Option.map_some, List.max?_eq_some_iff]
    refine ⟨List.mem_map_of_mem mem, ?_⟩
    intro n hn
    obtain ⟨r, hr, rfl⟩ := List.mem_map.1 hn
    exact greatest r hr

/-- One more save is taken or ignored. -/
theorem concat (h : Reflects ps stored) (p : Position) : Reflects (ps ++ [p]) (some (p.replacing stored)) := by
  cases h with
  | empty =>
    have hp : Stands ([] ++ [p]) p := stands_concat_of_le (by simp)
    exact .latest hp (by simp) (by simp)
  | @latest _ q stands greatest mem =>
    rcases Nat.lt_or_ge p.sequence q.sequence with hlt | hle
    · rw [Position.replacing_of_lt hlt]
      refine .latest (stands.concat_of_lt mem hlt) ?_ (List.mem_append_left _ mem)
      intro r hr
      rcases List.mem_append.1 hr with hr | hr
      · exact greatest r hr
      · cases List.mem_singleton.1 hr
        exact Nat.le_of_lt hlt
    · rw [Position.replacing_of_le hle]
      have hall : ∀ r ∈ ps, r.sequence ≤ p.sequence := fun r hr => Nat.le_trans (greatest r hr) hle
      refine .latest (stands_concat_of_le hall) ?_ (by simp)
      intro r hr
      rcases List.mem_append.1 hr with hr | hr
      · exact hall r hr
      · cases List.mem_singleton.1 hr
        exact Nat.le_refl _

end Reflects

end PositionCall

namespace Positions

open PositionCall (saves record Reflects Stands)

variable {subscriber other x : String} {p q : Position} {ps : Positions}

/-! ## Single calls -/

theorem save_of_lt (h : ps.load subscriber = some q) (hlt : p.sequence < q.sequence) :
    ps.save subscriber p = (.ignoredStale, ps) := by
  simp only [save, h, if_pos hlt]

theorem save_of_le (h : ∀ q, ps.load subscriber = some q → q.sequence ≤ p.sequence) :
    (ps.save subscriber p).1 = .advanced := by
  rw [save]
  split
  · rename_i q hq
    rw [if_neg (Nat.not_lt.2 (h q hq))]
  · rfl

/-- What is loaded after a save. -/
theorem load_save_self (subscriber : String) (p : Position) (ps : Positions) :
    (ps.save subscriber p).2.load subscriber = some (p.replacing (ps.load subscriber)) := by
  cases h : ps.load subscriber with
  | none => exact load_save (by simp [h])
  | some q =>
    rcases Nat.lt_or_ge p.sequence q.sequence with hlt | hle
    · rw [save_of_lt h hlt, h, Position.replacing_of_lt hlt]
    · rw [Position.replacing_of_le hle]
      exact load_save (by simpa [h] using hle)

theorem load_delete_self (subscriber : String) (ps : Positions) :
    (ps.delete subscriber).2.load subscriber = none := by
  rw [delete, load, NameMap.get?_erase, if_pos rfl]

/-! ## Runs -/

/-- What a call makes of the store. -/
def perform (ps : Positions) : PositionCall → Positions
  | .save x p => (ps.save x p).2
  | .load _ => ps
  | .delete x => (ps.delete x).2

/-- What calls make of the empty store. -/
def run (calls : List PositionCall) : Positions := calls.foldl perform empty

/-- A call for one subscriber leaves what others load. -/
theorem load_perform_of_ne {call : PositionCall} (h : call.subscriber ≠ other) (ps : Positions) :
    (ps.perform call).load other = ps.load other := by
  cases call with
  | save y p => exact load_save_of_ne h p ps
  | load y => rfl
  | delete y => exact load_delete_of_ne h ps

theorem record_of_ne {call : PositionCall} (h : call.subscriber ≠ x) (saved : List Position) :
    record x saved call = saved := by
  cases call with
  | save y p => exact if_neg h
  | load y => rfl
  | delete y => exact if_neg h

/-- What is stored goes on to reflect the saves. -/
theorem reflects_perform {saved : List Position} (h : Reflects saved (ps.load x)) (call : PositionCall) :
    Reflects (record x saved call) ((ps.perform call).load x) := by
  by_cases hx : call.subscriber = x
  · subst hx
    cases call with
    | save y p =>
      show Reflects (if y = y then saved ++ [p] else saved) ((ps.save y p).2.load y)
      rw [if_pos rfl, load_save_self]
      exact h.concat p
    | load y => exact h
    | delete y =>
      show Reflects (if y = y then [] else saved) ((ps.delete y).2.load y)
      rw [if_pos rfl, load_delete_self]
      exact .empty
  · rw [record_of_ne hx, load_perform_of_ne hx]
    exact h

/-- What is stored reflects the saves, whatever the calls. -/
theorem reflects_run (x : String) (calls : List PositionCall) : Reflects (saves x calls) ((run calls).load x) := by
  -- over the calls, from any store that reflects what was saved before
  suffices ∀ ps saved, Reflects saved (ps.load x) →
      Reflects (calls.foldl (record x) saved) ((calls.foldl perform ps).load x) from this empty [] .empty
  induction calls with
  | nil => exact fun _ _ h => h
  | cons call calls ih => exact fun ps saved h => ih _ _ (reflects_perform h call)

/-- What a store that came from some calls answers for a subscriber. -/
structure Answers (calls : List PositionCall) (x : String) : Prop where
  /-- Nothing is loaded if nothing was saved since the last deletion, -/
  load_none : (run calls).load x = none ↔ saves x calls = []
  /-- and else the latest position that was not below any before it. -/
  load_some : ∀ q, (run calls).load x = some q ↔ Stands (saves x calls) q
  /-- A save is ignored just if its sequence is below the greatest; -/
  stale_iff : ∀ p, ((run calls).save x p).1 = .ignoredStale ↔
    ∃ greatest, ((saves x calls).map Position.sequence).max? = some greatest ∧ p.sequence < greatest
  /-- then nothing changes. -/
  stale : ∀ p, ((run calls).save x p).1 = .ignoredStale → ((run calls).save x p).2 = run calls
  /-- Any other save is taken. -/
  advanced : ∀ p, ((run calls).save x p).1 ≠ .ignoredStale →
    ((run calls).save x p).1 = .advanced ∧ ((run calls).save x p).2.load x = some p
  /-- A deletion says whether something was loaded. -/
  delete_iff : ((run calls).delete x).1 = true ↔ (run calls).load x ≠ none
  /-- No call for the subscriber concerns another one. -/
  others : ∀ call : PositionCall, call.subscriber = x → ∀ y, y ≠ x →
    ((run calls).perform call).load y = (run calls).load y

/-- **Positions**: whatever calls come from whatever subscribers, no position goes back, and all are kept apart. -/
theorem run_answers (calls : List PositionCall) (x : String) : Answers calls x := by
  have h := reflects_run x calls
  have hsave : ∀ p : Position, (∃ q, (run calls).load x = some q ∧ p.sequence < q.sequence) ∨
      ∀ q, (run calls).load x = some q → q.sequence ≤ p.sequence := by
    intro p
    cases hl : (run calls).load x with
    | none => exact .inr fun q hq => by cases hq
    | some q =>
      rcases Nat.lt_or_ge p.sequence q.sequence with hlt | hle
      · exact .inl ⟨q, rfl, hlt⟩
      · exact .inr fun r hr => Option.some.inj hr ▸ hle
  constructor
  case load_none => exact h.eq_none_iff
  case load_some => exact fun q => h.eq_some_iff
  case stale_iff =>
    intro p
    rw [h.max?_eq]
    rcases hsave p with ⟨q, hq, hlt⟩ | hle
    · simp [save_of_lt hq hlt, hq, hlt]
    · rw [save_of_le hle]
      simpa using hle
  case stale =>
    intro p hs
    rcases hsave p with ⟨q, hq, hlt⟩ | hle
    · rw [save_of_lt hq hlt]
    · rw [save_of_le hle] at hs
      cases hs
  case advanced =>
    intro p hs
    rcases hsave p with ⟨q, hq, hlt⟩ | hle
    · rw [save_of_lt hq hlt] at hs
      exact absurd rfl hs
    · exact ⟨save_of_le hle, load_save hle⟩
  case delete_iff => simp [delete, Option.isSome_iff_ne_none]
  case others =>
    rintro call rfl y hy
    exact load_perform_of_ne hy.symm (run calls)

/-- Of two positions with the same sequence the later one stays, and a lower one is ignored. -/
example :
    (run [.save "a" ⟨.int64 1, 5⟩, .save "b" ⟨.int64 2, 7⟩, .save "a" ⟨.int64 3, 5⟩, .save "a" ⟨.int64 4, 4⟩]).load "a" =
      some ⟨.int64 3, 5⟩ := by
  rfl

end Positions

end Chronicle
