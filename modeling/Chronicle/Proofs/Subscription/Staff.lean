import Chronicle.Proofs.Subscription.Journal
import Chronicle.Proofs.Subscription.Workers

/-!
# The workers of a subscriber

Of the workers that were ever started for a subscriber one at most is running, and it stands where the journal ends
(`Staffed`): in front of the event at the place, or with that event in its hands. The running worker may finish
(`Staffed.finish`), hand the event over (`Staffed.push`) or get its answer (`Staffed.answer`); a new one may start when
all others have finished (`Staffed.spawn`); what happens to the workers of others does not matter (`Staffed.frame`).
-/

namespace Chronicle

/-- Workers of a subscriber that has come to the place `n`: one at most is running, and it is in front of the event
there, or has it in its hands. -/
structure Staffed (id : String) (n : Nat) (js : List Handover) (r : Registry) : Prop where
  owner : ∀ h ∈ js, ∃ w, r.Owns id h.worker w
  unique : ∀ k w k' w', r.Owns id k w → r.Owns id k' w' → w.isFinished = false → w'.isFinished = false → k = k'
  idle : ∀ k w, r.Owns id k w → w.stage = .idle → w.feed = .ofLog n ∧
    ∀ h ∈ js.getLast?, h.worker ≤ k ∧ h.mark ≠ .pending ∧ (h.mark ≠ .saved → h.worker < k)
  handling : ∀ k w event position, r.Owns id k w → w.stage = .handling event position →
    w.feed = .ofLog (n + 1) ∧ position = EventLog.positionOf n ∧ ∃ h ∈ js.getLast?, h.worker = k ∧ h.mark = .pending
  pending : ∀ h ∈ js.getLast?, h.mark = .pending →
    ∃ w event position, r.Owns id h.worker w ∧ w.stage = .handling event position

namespace Staffed

variable {id : String} {n n' k : Nat} {js js' init : List Handover} {b : Handover} {r r' : Registry} {v v' : Worker}

theorem empty (id : String) : Staffed id 0 [] .empty := by
  have hno : ∀ k w, ¬Registry.empty.Owns id k w := fun k w h => by cases h.1
  constructor
  case owner => exact fun _ h => absurd h List.not_mem_nil
  case unique => exact fun k w _ _ h => absurd h (hno k w)
  case idle => exact fun k w h => absurd h (hno k w)
  case handling => exact fun k w _ _ h => absurd h (hno k w)
  case pending => exact fun _ h => by cases h

/-- What happens to the workers of others does not matter, nor does a stop signal. -/
theorem frame (h : Staffed id n js r)
    (hto : ∀ k w, r.Owns id k w → ∃ w', r'.Owns id k w' ∧ w'.stage = w.stage ∧ w'.feed = w.feed)
    (hof : ∀ k w', r'.Owns id k w' → ∃ w, r.Owns id k w ∧ w'.stage = w.stage ∧ w'.feed = w.feed) :
    Staffed id n js r' := by
  constructor
  case owner =>
    intro x hx
    obtain ⟨w, hw⟩ := h.owner x hx
    obtain ⟨w', hw', -⟩ := hto _ w hw
    exact ⟨w', hw'⟩
  case unique =>
    intro k w k' w' ho ho' hf hf'
    obtain ⟨v, hv, hs, -⟩ := hof k w ho
    obtain ⟨v', hv', hs', -⟩ := hof k' w' ho'
    refine h.unique k v k' v' hv hv' ?_ ?_
    · rw [← hf, Worker.isFinished, Worker.isFinished, hs]
    · rw [← hf', Worker.isFinished, Worker.isFinished, hs']
  case idle =>
    intro k w ho hi
    obtain ⟨v, hv, hs, hfeed⟩ := hof k w ho
    rw [hfeed]
    exact h.idle k v hv (hs ▸ hi)
  case handling =>
    intro k w event position ho hh
    obtain ⟨v, hv, hs, hfeed⟩ := hof k w ho
    rw [hfeed]
    exact h.handling k v event position hv (hs ▸ hh)
  case pending =>
    intro x hx hp
    obtain ⟨w, event, position, hw, hs⟩ := h.pending x hx hp
    obtain ⟨w', hw', hs', -⟩ := hto _ w hw
    exact ⟨w', event, position, hw', hs'.trans hs⟩

theorem similar (h : Staffed id n js r) (hs : r.Similar r') : Staffed id n js r' := by
  refine h.frame (fun k w hw => ?_) fun k w' hw' => hs.owns hw'
  obtain ⟨w', hw', hst, hf⟩ := hs.symm.owns hw
  exact ⟨w', hw', hst.symm, hf.symm⟩

/-! ## Steps of the running worker -/

/-- A step of the running worker: only this worker and the end of the journal need a look. -/
theorem own (h : Staffed id n js r) (ho : r.Owns id k v) (hv : v.isFinished = false) (hsub : v'.subscriber = id)
    (howner : ∀ x ∈ js', x.worker = k ∨ ∃ y ∈ js, y.worker = x.worker)
    (hidle : v'.stage = .idle → v'.feed = .ofLog n' ∧
      ∀ x ∈ js'.getLast?, x.worker ≤ k ∧ x.mark ≠ .pending ∧ (x.mark ≠ .saved → x.worker < k))
    (hhandling : ∀ event position, v'.stage = .handling event position → v'.feed = .ofLog (n' + 1) ∧
      position = EventLog.positionOf n' ∧ ∃ x ∈ js'.getLast?, x.worker = k ∧ x.mark = .pending)
    (hpending : ∀ x ∈ js'.getLast?, x.mark = .pending →
      x.worker = k ∧ ∃ event position, v'.stage = .handling event position) :
    Staffed id n' js' (r.update k fun _ => v') := by
  have hk : (r.update k fun _ => v').Owns id k v' := by
    refine ⟨?_, hsub⟩
    rw [Registry.getElem?_update, ho.1, Option.map_some, if_pos rfl]
  -- the other workers of the subscriber have finished
  have hcases : ∀ j w, (r.update k fun _ => v').Owns id j w →
      (j = k ∧ w = v') ∨ (r.Owns id j w ∧ w.isFinished = true) := by
    intro j w hw
    rcases Registry.owns_update_self ho.1 hw with ⟨hj, hw, -⟩ | ⟨hj, hw⟩
    · exact .inl ⟨hj, hw⟩
    · right
      refine ⟨hw, ?_⟩
      cases hf : w.isFinished with
      | true => rfl
      | false => exact absurd (h.unique j w k v hw ho hf hv) hj
  constructor
  case owner =>
    intro x hx
    by_cases hx' : x.worker = k
    · exact ⟨v', hx' ▸ hk⟩
    · obtain ⟨y, hy, hyx⟩ := (howner x hx).resolve_left hx'
      obtain ⟨w, hw, hid⟩ := h.owner y hy
      refine ⟨w, ?_, hid⟩
      rw [← hyx, Registry.getElem?_update, hw, Option.map_some, if_neg (hyx ▸ Ne.symm hx')]
  case unique =>
    intro j w j' w' hw hw' hf hf'
    rcases hcases j w hw with ⟨rfl, -⟩ | ⟨-, hfin⟩
    · rcases hcases j' w' hw' with ⟨rfl, -⟩ | ⟨-, hfin⟩
      · rfl
      · rw [hfin] at hf'
        cases hf'
    · rw [hfin] at hf
      cases hf
  case idle =>
    intro j w hw hi
    rcases hcases j w hw with ⟨rfl, rfl⟩ | ⟨-, hfin⟩
    · exact hidle hi
    · rw [Worker.isFinished, hi] at hfin
      cases hfin
  case handling =>
    intro j w event position hw hh
    rcases hcases j w hw with ⟨rfl, rfl⟩ | ⟨-, hfin⟩
    · exact hhandling event position hh
    · rw [Worker.isFinished, hh] at hfin
      cases hfin
  case pending =>
    intro x hx hp
    obtain ⟨hxk, event, position, hs⟩ := hpending x hx hp
    exact ⟨v', event, position, hxk ▸ hk, hs⟩

/-- The running worker finishes between two events. -/
theorem finish (h : Staffed id n js r) (ho : r.Owns id k v) (hi : v.stage = .idle) (hsub : v'.subscriber = id)
    {outcome : Outcome} (hv' : v'.stage = .finished outcome) : Staffed id n js (r.update k fun _ => v') := by
  obtain ⟨-, hlast⟩ := h.idle k v ho hi
  apply h.own ho (by rw [Worker.isFinished, hi]) hsub
  · exact fun x hx => .inr ⟨x, hx, rfl⟩
  · intro hs
    rw [hv'] at hs
    cases hs
  · intro event position hs
    rw [hv'] at hs
    cases hs
  · exact fun x hx hp => absurd hp (hlast x hx).2.1

/-- The running worker hands the event at the place over. -/
theorem push (h : Staffed id n js r) (ho : r.Owns id k v) (hi : v.stage = .idle) (hsub : v'.subscriber = id)
    {event : StreamEvent} (hv' : v'.stage = .handling event (EventLog.positionOf n)) (hf : v'.feed = .ofLog (n + 1))
    (hk : b.worker = k) (hb : b.mark = .pending) : Staffed id n (js ++ [b]) (r.update k fun _ => v') := by
  apply h.own ho (by rw [Worker.isFinished, hi]) hsub
  · intro x hx
    rcases List.mem_append.1 hx with hx | hx
    · exact .inr ⟨x, hx, rfl⟩
    · cases List.mem_singleton.1 hx
      exact .inl hk
  · intro hs
    rw [hv'] at hs
    cases hs
  · intro event' position hs
    rw [hv'] at hs
    cases hs
    exact ⟨hf, rfl, b, List.getLast?_concat, hk, hb⟩
  · intro x hx _
    rw [List.getLast?_concat] at hx
    cases hx
    exact ⟨hk, _, _, hv'⟩

/-- The event in the running worker's hands is answered. The worker goes on only if the event was saved. -/
theorem answer (h : Staffed id n (init ++ [b]) r) (ho : r.Owns id k v) (hv : v.isFinished = false)
    (hsub : v'.subscriber = id) (hk : b.worker = k) {m : Mark} (hm : m ≠ .pending)
    (hidle : v'.stage = .idle → v'.feed = .ofLog n' ∧ m = .saved)
    (hno : ∀ event position, v'.stage ≠ .handling event position) :
    Staffed id n' (init ++ [{ b with mark := m }]) (r.update k fun _ => v') := by
  apply h.own ho hv hsub
  · intro x hx
    rcases List.mem_append.1 hx with hx | hx
    · exact .inr ⟨x, List.mem_append_left _ hx, rfl⟩
    · cases List.mem_singleton.1 hx
      exact .inl hk
  · intro hs
    obtain ⟨hf, hsaved⟩ := hidle hs
    refine ⟨hf, fun x hx => ?_⟩
    rw [List.getLast?_concat] at hx
    cases hx
    exact ⟨Nat.le_of_eq hk, hm, fun hne => absurd hsaved hne⟩
  · exact fun event position hs => absurd hs (hno event position)
  · intro x hx hp
    rw [List.getLast?_concat] at hx
    cases hx
    exact absurd hp hm

/-- A new worker at the place, when the others of the subscriber have finished. -/
theorem spawn (h : Staffed id n js r) (hfin : ∀ w ∈ r.workers, w.subscriber = id → w.isFinished = true)
    (hr : r'.workers = r.workers ++ [.start id (.ofLog n)]) : Staffed id n js r' := by
  have hold : ∀ k w, r.Owns id k w → w.isFinished = true := fun k w hw => hfin w hw.mem hw.2
  have hnone : ∀ x ∈ js.getLast?, x.mark ≠ .pending := by
    intro x hx hp
    obtain ⟨w, event, position, hw, hs⟩ := h.pending x hx hp
    have hf := hold _ w hw
    rw [Worker.isFinished, hs] at hf
    cases hf
  constructor
  case owner =>
    intro x hx
    obtain ⟨w, hw⟩ := h.owner x hx
    exact ⟨w, hw.append hr⟩
  case unique =>
    intro j w j' w' hw hw' hf hf'
    rcases Registry.owns_append hr hw with ⟨rfl, -⟩ | hw
    · rcases Registry.owns_append hr hw' with ⟨rfl, -⟩ | hw'
      · rfl
      · rw [hold j' w' hw'] at hf'
        cases hf'
    · rw [hold j w hw] at hf
      cases hf
  case idle =>
    intro j w hw hi
    rcases Registry.owns_append hr hw with ⟨rfl, rfl⟩ | hw
    · refine ⟨rfl, fun x hx => ?_⟩
      obtain ⟨v, hv⟩ := h.owner x (List.mem_of_getLast? hx)
      exact ⟨Nat.le_of_lt hv.lt, hnone x hx, fun _ => hv.lt⟩
    · have hf := hold j w hw
      rw [Worker.isFinished, hi] at hf
      cases hf
  case handling =>
    intro j w event position hw hh
    rcases Registry.owns_append hr hw with ⟨rfl, rfl⟩ | hw
    · cases hh
    · have hf := hold j w hw
      rw [Worker.isFinished, hh] at hf
      cases hf
  case pending =>
    intro x hx hp
    exact absurd hp (hnone x hx)

end Staffed

end Chronicle
