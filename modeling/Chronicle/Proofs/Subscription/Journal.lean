import Chronicle.Proofs.Subscription.System
import Mathlib.Data.List.Chain

/-!
# The journal of a subscriber

What was handed to the handlers of a subscriber, and what became of it, if all goes in order (`Recorded`): each event
follows the one before, and a place says how far the subscriber has come. Handing over the event at the place keeps
this (`Recorded.push`), and so does its answer, which moves the place on if the event was saved (`Recorded.answer`).
-/

namespace Chronicle

/-- The document at a place is decoded as an event. -/
def EventLog.Decodes (codec : Codec) (log : EventLog) (place : Nat) (event : StreamEvent) : Prop :=
  ∃ d, log.documents[place]? = some d ∧ codec.decode d = .ok event

theorem EventLog.Decodes.mono {codec : Codec} {log log' : EventLog} {place : Nat} {event : StreamEvent}
    (h : log.Decodes codec place event) (hlog : log.documents <+: log'.documents) :
    log'.Decodes codec place event := by
  obtain ⟨d, hd, he⟩ := h
  obtain ⟨rest, hr⟩ := hlog
  refine ⟨d, ?_, he⟩
  rw [← hr, List.getElem?_append_left (List.getElem?_eq_some_iff.1 hd).1, hd]

theorem EventLog.Decodes.lt_size {codec : Codec} {log : EventLog} {place : Nat} {event : StreamEvent}
    (h : log.Decodes codec place event) : place < log.size := by
  obtain ⟨d, hd, -⟩ := h
  exact (List.getElem?_eq_some_iff.1 hd).1

/-- An event is handed over behind another: the next one if that was saved, and else the same one again, to a worker
that was started later. -/
structure Follows (a b : Handover) : Prop where
  worker_le : a.worker ≤ b.worker
  next : a.mark = .saved → b.place = a.place + 1
  again : a.mark ≠ .saved → b.place = a.place ∧ a.worker < b.worker

theorem mem_dropLast_or_getLast? {α : Type} {xs : List α} {x : α} (h : x ∈ xs) :
    x ∈ xs.dropLast ∨ x ∈ xs.getLast? := by
  rcases List.eq_nil_or_concat xs with rfl | ⟨init, y, rfl⟩
  · cases h
  · rw [List.concat_eq_append] at h ⊢
    rw [List.dropLast_concat, List.getLast?_concat]
    rcases List.mem_append.1 h with h | h
    · exact .inl h
    · right
      rw [List.mem_singleton.1 h]
      rfl

/-- A journal that has come to the place `n`: all events before it were handed over in order and saved. -/
structure Recorded (codec : Codec) (log : EventLog) (n : Nat) (js : List Handover) : Prop where
  decodes : ∀ p < n, ∃ e, log.Decodes codec p e
  chain : js.IsChain Follows
  head : ∀ h ∈ js.head?, h.place = 0
  decoded : ∀ h ∈ js, log.Decodes codec h.place h.event
  /-- Only the last event can be in a handler's hands. -/
  settled : ∀ h ∈ js.dropLast, h.mark ≠ .pending
  last : ∀ h ∈ js.getLast?, (h.mark = .saved → h.place + 1 = n) ∧ (h.mark ≠ .saved → h.place = n)
  place_le : ∀ h ∈ js, h.place ≤ n
  saved_lt : ∀ h ∈ js, h.mark = .saved → h.place < n
  exists_saved : 0 < n → ∃ h ∈ js, h.mark = .saved ∧ h.place + 1 = n

namespace Recorded

variable {codec : Codec} {log log' : EventLog} {n : Nat} {js init : List Handover} {b : Handover}

theorem nil (codec : Codec) (log : EventLog) : Recorded codec log 0 [] where
  decodes _ hp := absurd hp (Nat.not_lt_zero _)
  chain := .nil
  head _ h := by cases h
  decoded _ h := by cases h
  settled _ h := by cases h
  last _ h := by cases h
  place_le _ h := by cases h
  saved_lt _ h := by cases h
  exists_saved h := absurd h (Nat.not_lt_zero _)

theorem mono (h : Recorded codec log n js) (hlog : log.documents <+: log'.documents) : Recorded codec log' n js :=
  { h with
    decodes := fun p hp => (h.decodes p hp).imp fun _ he => he.mono hlog
    decoded := fun x hx => (h.decoded x hx).mono hlog }

/-- The event at the place is handed over. -/
theorem push (h : Recorded codec log n js) (hb : b.place = n) (hm : b.mark = .pending)
    (hd : log.Decodes codec n b.event)
    (hl : ∀ a ∈ js.getLast?, a.worker ≤ b.worker ∧ a.mark ≠ .pending ∧ (a.mark ≠ .saved → a.worker < b.worker)) :
    Recorded codec log n (js ++ [b]) := by
  have hmem : ∀ x ∈ js ++ [b], x ∈ js ∨ x = b := fun x hx => (List.mem_append.1 hx).imp_right List.mem_singleton.1
  constructor
  case decodes => exact h.decodes
  case chain =>
    refine h.chain.append (.singleton b) fun a ha b' hb' => ?_
    cases hb'
    obtain ⟨hle, -, hlt⟩ := hl a ha
    obtain ⟨hs, hu⟩ := h.last a ha
    exact ⟨hle, fun hm => hb.trans (hs hm).symm, fun hm => ⟨hb.trans (hu hm).symm, hlt hm⟩⟩
  case head =>
    intro x hx
    cases js with
    | nil =>
      cases hx
      rw [hb]
      -- nothing was saved, so the place is the first one
      refine Nat.eq_zero_of_not_pos fun hn => ?_
      obtain ⟨y, hy, -⟩ := h.exists_saved hn
      cases hy
    | cons a js => exact h.head x hx
  case decoded =>
    intro x hx
    rcases hmem x hx with hx | rfl
    · exact h.decoded x hx
    · exact hb ▸ hd
  case settled =>
    intro x hx
    rw [List.dropLast_concat] at hx
    rcases mem_dropLast_or_getLast? hx with hx | hx
    · exact h.settled x hx
    · exact (hl x hx).2.1
  case last =>
    intro x hx
    rw [List.getLast?_concat] at hx
    cases hx
    exact ⟨fun hs => absurd (hm.symm.trans hs) (by decide), fun _ => hb⟩
  case place_le =>
    intro x hx
    rcases hmem x hx with hx | rfl
    · exact h.place_le x hx
    · exact Nat.le_of_eq hb
  case saved_lt =>
    intro x hx hs
    rcases hmem x hx with hx | rfl
    · exact h.saved_lt x hx hs
    · rw [hm] at hs
      cases hs
  case exists_saved =>
    intro hn
    obtain ⟨x, hx, hs⟩ := h.exists_saved hn
    exact ⟨x, List.mem_append_left _ hx, hs⟩

/-- The event in the handler's hands is answered: the place moves on if it was saved. -/
theorem answer (h : Recorded codec log n (init ++ [b])) (hb : b.mark = .pending) (m : Mark) :
    Recorded codec log (if m = .saved then n + 1 else n) (init ++ [{ b with mark := m }]) := by
  have hlast := h.last b (by rw [List.getLast?_concat]; rfl)
  have hplace : b.place = n := hlast.2 (hb ▸ by decide)
  obtain ⟨hc, -, hf⟩ := List.isChain_append.1 h.chain
  have hmem : ∀ x ∈ init ++ [{ b with mark := m }], x ∈ init ∨ x = { b with mark := m } := fun x hx =>
    (List.mem_append.1 hx).imp_right List.mem_singleton.1
  have hle : n ≤ if m = .saved then n + 1 else n := by
    split
    · exact Nat.le_succ n
    · exact Nat.le_refl n
  constructor
  case decodes =>
    intro p hp
    by_cases hpn : p < n
    · exact h.decodes p hpn
    · have hp' : p = b.place := by split at hp <;> omega
      exact ⟨b.event, hp' ▸ h.decoded b (List.mem_append_right _ List.mem_cons_self)⟩
  case chain =>
    refine hc.append (.singleton _) fun a ha b' hb' => ?_
    cases hb'
    have hab := hf a ha b rfl
    exact ⟨hab.worker_le, hab.next, hab.again⟩
  case head =>
    intro x hx
    cases init with
    | nil =>
      cases hx
      exact h.head b rfl
    | cons a init => exact h.head x hx
  case decoded =>
    intro x hx
    rcases hmem x hx with hx | rfl
    · exact h.decoded x (List.mem_append_left _ hx)
    · exact h.decoded b (List.mem_append_right _ List.mem_cons_self)
  case settled =>
    intro x hx
    rw [List.dropLast_concat] at hx
    exact h.settled x (by rwa [List.dropLast_concat])
  case last =>
    intro x hx
    rw [List.getLast?_concat] at hx
    cases hx
    exact ⟨fun hs => by rw [if_pos hs, ← hplace], fun hs => by rw [if_neg hs, ← hplace]⟩
  case place_le =>
    intro x hx
    rcases hmem x hx with hx | rfl
    · exact Nat.le_trans (h.place_le x (List.mem_append_left _ hx)) hle
    · exact Nat.le_trans (Nat.le_of_eq hplace) hle
  case saved_lt =>
    intro x hx hs
    rcases hmem x hx with hx | rfl
    · exact Nat.lt_of_lt_of_le (h.saved_lt x (List.mem_append_left _ hx) hs) hle
    · rw [if_pos hs]
      exact hplace ▸ Nat.lt_succ_self _
  case exists_saved =>
    intro hn
    by_cases hs : m = .saved
    · exact ⟨_, List.mem_append_right _ List.mem_cons_self, hs, by rw [if_pos hs, ← hplace]⟩
    · rw [if_neg hs] at hn ⊢
      obtain ⟨x, hx, hxs, hxp⟩ := h.exists_saved hn
      rcases List.mem_append.1 hx with hx | hx
      · exact ⟨x, List.mem_append_left _ hx, hxs, hxp⟩
      · cases List.mem_singleton.1 hx
        rw [hb] at hxs
        cases hxs

end Recorded

end Chronicle
