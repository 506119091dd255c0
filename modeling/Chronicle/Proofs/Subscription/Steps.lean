import Chronicle.Proofs.Store.Positions
import Chronicle.Proofs.Subscription.Journal
import Chronicle.Proofs.Subscription.Workers

/-!
# What a step can do

For each part of a system, what any step does to it: the log only grows (`System.prefix_step`); a worker moves as
`System.act` says, and only a subscription adds one (`System.exists_worker_step`, `System.worker_step_cases`); a
position changes only if it is saved or deleted, or if an event of one of its workers is saved
(`System.load_step_cases`); and only a worker that goes to its next event writes in the journal (`System.route_poll`,
`System.route_step`).
-/

namespace Chronicle

namespace System

variable {store codec : Codec} {Allowed Allowed' : System → Action → Prop} {first s t : System} {id : String} {j k : Nat}
  {w w' : Worker}

namespace Reachable

theorem trans (h : Reachable store codec Allowed first s) (h' : Reachable store codec Allowed s t) :
    Reachable store codec Allowed first t := by
  induction h' with
  | first => exact h
  | step a _ ha ih => exact ih.step a ha

theorem mono (hA : ∀ s a, Allowed s a → Allowed' s a) (h : Reachable store codec Allowed first s) :
    Reachable store codec Allowed' first s := by
  induction h with
  | first => exact .first
  | step a _ ha ih => exact ih.step a (hA _ a ha)

end Reachable

/-- No step is ruled out. -/
def Any (_ : System) (_ : Action) : Prop := True

theorem Reachable.any (h : Reachable store codec Allowed first s) : Reachable store codec Any first s :=
  h.mono fun _ _ _ => trivial

/-! ## The log -/

theorem prefix_step (store codec : Codec) (s : System) (a : Action) :
    s.log.documents <+: (s.step store codec a).log.documents := by
  cases a with
  | append call =>
    rw [step]
    split
    · rename_i ha
      exact EventLog.prefix_of_append ha
    · exact List.prefix_refl _
  | poll k =>
    simp only [step]
    split <;> exact List.prefix_refl _
  | settle k verdict saves =>
    simp only [step]
    split
    · exact List.prefix_refl _
    · split <;> exact List.prefix_refl _
  | _ => exact List.prefix_refl _

theorem Reachable.prefix (h : Reachable store codec Allowed s t) : s.log.documents <+: t.log.documents := by
  induction h with
  | first => exact List.prefix_refl _
  | step a _ _ ih => exact ih.trans (prefix_step store codec _ a)

/-! ## Workers -/

/-- What a subscription answers. -/
def subscription (id : String) (start : StartAt) (loads : Bool) (s : System) : Outcome :=
  (s.registry.subscribe (load loads) (fun p => s.log.openFeed p) id start s.positions).1

theorem exists_of_subscription {start : StartAt} {loads : Bool} (h : s.subscription id start loads = .ok ())
    (store codec : Codec) : ∃ feed, s.log.openFeed (start.position (s.positions.load id)) = .ok feed ∧
      (s.step store codec (.subscribe id start loads)).registry.workers = s.registry.workers ++ [.start id feed] := by
  obtain ⟨-, ⟨hne, -⟩ | ⟨saved, feed, hsaved, hfeed, -, hws⟩⟩ :=
    Registry.subscribe_cases (load loads) (fun p => s.log.openFeed p) id start s.positions s.registry
  · exact absurd h hne
  · cases loads with
    | false => cases hsaved
    | true =>
      cases hsaved
      exact ⟨feed, hfeed, hws⟩

/-- How a step moves the worker with a number, stop signals apart. -/
def act (codec : Codec) (s : System) (k : Nat) (a : Action) (w : Worker) : Worker :=
  match a with
  | .poll j => if j = k then w.poll codec s.log else w
  | .settle j verdict saves => if j = k then (w.settle (save saves) verdict s.positions).1 else w
  | _ => w

/-- The workers are still there after a step. -/
theorem exists_worker_step (hk : s.registry.workers[k]? = some w) (store codec : Codec) (a : Action) :
    ∃ w', (s.step store codec a).registry.workers[k]? = some w' ∧ w'.state = (act codec s k a w).state := by
  cases a with
  | append call =>
    rw [step]
    split <;> exact ⟨w, hk, rfl⟩
  | subscribe id start loads =>
    obtain ⟨-, ⟨-, hws⟩ | ⟨saved, feed, -, -, -, hws⟩⟩ :=
      Registry.subscribe_cases (load loads) (fun p => s.log.openFeed p) id start s.positions s.registry
    · exact ⟨w, (congrArg (fun ws => ws[k]?) hws).trans hk, rfl⟩
    · have hlt : k < s.registry.workers.length := (List.getElem?_eq_some_iff.1 hk).1
      refine ⟨w, (congrArg (fun ws => ws[k]?) hws).trans ?_, rfl⟩
      rw [List.getElem?_append_left hlt, hk]
  | unsubscribe id => exact (Registry.similar_release id s.registry).getElem? hk
  | abandon => exact (Registry.similar_abandon s.registry).getElem? hk
  | poll j =>
    cases hj : s.registry.workers[j]? with
    | none =>
      have hjk : j ≠ k := fun h => by simp [h, hk] at hj
      simp only [step, hj, act, if_neg hjk]
      exact ⟨w, hk, rfl⟩
    | some v =>
      rw [step_poll hj, Registry.getElem?_update, hk, act]
      refine ⟨_, rfl, ?_⟩
      split
      · subst j
        cases hk.symm.trans hj
        rfl
      · rfl
  | settle j verdict saves =>
    cases hj : s.registry.workers[j]? with
    | none =>
      have hjk : j ≠ k := fun h => by simp [h, hk] at hj
      simp only [step, hj, act, if_neg hjk]
      exact ⟨w, hk, rfl⟩
    | some v =>
      by_cases hst : ∃ event position, v.stage = .handling event position
      · obtain ⟨event, position, hst⟩ := hst
        rw [step_settle hj hst, Registry.getElem?_update, hk, act]
        refine ⟨_, rfl, ?_⟩
        split
        · subst j
          cases hk.symm.trans hj
          rfl
        · rfl
      · have hne : ∀ event position, v.stage ≠ .handling event position := fun event position h =>
          hst ⟨event, position, h⟩
        rw [step_settle_of_ne hj hne, act]
        refine ⟨w, hk, ?_⟩
        split
        · subst j
          cases hk.symm.trans hj
          rw [Worker.settle_of_ne (save saves) verdict s.positions hne]
        · rfl
  | _ => exact ⟨w, hk, rfl⟩

/-- A step adds no worker, unless it is a subscription that succeeds. -/
theorem length_step_cases (store codec : Codec) (s : System) (a : Action) :
    (s.step store codec a).registry.workers.length = s.registry.workers.length ∨
      ∃ id start loads saved feed, a = .subscribe id start loads ∧ s.subscription id start loads = .ok () ∧
        (load loads id s.positions).1 = .ok saved ∧ s.log.openFeed (start.position saved) = .ok feed ∧
        (s.step store codec a).registry.workers = s.registry.workers ++ [.start id feed] := by
  cases a with
  | append call =>
    rw [step]
    split <;> exact .inl rfl
  | subscribe id start loads =>
    obtain ⟨-, ⟨-, hws⟩ | ⟨saved, feed, hsaved, hfeed, hok, hws⟩⟩ :=
      Registry.subscribe_cases (load loads) (fun p => s.log.openFeed p) id start s.positions s.registry
    · exact .inl (congrArg List.length hws)
    · exact .inr ⟨id, start, loads, saved, feed, rfl, hok, hsaved, hfeed, hws⟩
  | unsubscribe id => exact .inl (Registry.similar_release id s.registry).length_eq
  | abandon => exact .inl (Registry.similar_abandon s.registry).length_eq
  | poll j =>
    simp only [step]
    split
    · exact .inl rfl
    · exact .inl (List.length_modify ..)
  | settle j verdict saves =>
    simp only [step]
    split
    · exact .inl rfl
    · split
      · exact .inl (List.length_modify ..)
      · exact .inl rfl
  | _ => exact .inl rfl

theorem length_le_step (store codec : Codec) (s : System) (a : Action) :
    s.registry.workers.length ≤ (s.step store codec a).registry.workers.length := by
  rcases length_step_cases store codec s a with h | ⟨id, start, loads, saved, feed, -, -, -, -, h⟩
  · exact Nat.le_of_eq h.symm
  · simp [h]

/-- Each worker after a step was there before and has moved, or it is the one that a subscription has started. -/
theorem worker_step_cases {a : Action} (hk : (s.step store codec a).registry.workers[k]? = some w') :
    (∃ w, s.registry.workers[k]? = some w ∧ w'.state = (act codec s k a w).state) ∨
      (k = s.registry.workers.length ∧ ∃ id start loads saved feed, a = .subscribe id start loads ∧
        s.subscription id start loads = .ok () ∧ (load loads id s.positions).1 = .ok saved ∧
        s.log.openFeed (start.position saved) = .ok feed ∧ w' = .start id feed) := by
  have hlt' : k < (s.step store codec a).registry.workers.length := (List.getElem?_eq_some_iff.1 hk).1
  by_cases hlt : k < s.registry.workers.length
  · left
    obtain ⟨v, hv, hs⟩ := exists_worker_step (List.getElem?_eq_getElem hlt) store codec a
    cases hk.symm.trans hv
    exact ⟨_, List.getElem?_eq_getElem hlt, hs⟩
  · right
    rcases length_step_cases store codec s a with h | ⟨id, start, loads, saved, feed, ha, hok, hsaved, hfeed, hws⟩
    · exact absurd (h ▸ hlt') hlt
    · have hlen : k = s.registry.workers.length := by
        simp [hws] at hlt'
        omega
      refine ⟨hlen, id, start, loads, saved, feed, ha, hok, hsaved, hfeed, ?_⟩
      rw [hws, hlen, List.getElem?_concat_length] at hk
      exact (Option.some.inj hk).symm

/-- A worker stays with its subscriber. -/
theorem subscriber_act (codec : Codec) (s : System) (k : Nat) (a : Action) (w : Worker) :
    (act codec s k a w).subscriber = w.subscriber := by
  unfold act
  split
  · split
    · exact Worker.subscriber_poll codec s.log w
    · rfl
  · split
    · exact Worker.subscriber_settle _ _ _ w
    · rfl
  · rfl

/-- Only by going to its next event a worker moves in its feed. -/
theorem feed_act {a : Action} (ha : a ≠ .poll k) (codec : Codec) (s : System) (w : Worker) :
    (act codec s k a w).feed = w.feed := by
  cases a with
  | poll j =>
    have hjk : j ≠ k := fun h => ha (h ▸ rfl)
    rw [act, if_neg hjk]
  | settle j verdict saves =>
    rw [act]
    split
    · exact Worker.feed_settle _ _ _ w
    · rfl
  | _ => rfl

/-- A worker that has finished does not move any more. -/
theorem act_of_isFinished (codec : Codec) (s : System) (k : Nat) (a : Action) {w : Worker} (h : w.isFinished = true) :
    act codec s k a w = w := by
  obtain ⟨hi, hh⟩ := Worker.stage_of_isFinished h
  unfold act
  split
  · rw [Worker.poll_of_ne_idle codec s.log hi, ite_self]
  · rw [Worker.settle_of_ne _ _ _ hh, ite_self]
  · rfl

/-! ## Positions -/

/-- Nobody saves or deletes the position of a subscriber, its workers apart. -/
def Untouched (subscriber : String) : Action → Prop
  | .save other _ => other ≠ subscriber
  | .delete other => other ≠ subscriber
  | _ => True

/-- Then the position changes only if an event of one of its subscriber's workers is saved. -/
theorem load_step_cases {a : Action} (ha : Untouched id a) (store codec : Codec) (s : System) :
    (s.step store codec a).positions.load id = s.positions.load id ∨
      ∃ k verdict saves w event position, a = .settle k verdict saves ∧ s.registry.Owns id k w ∧
        w.stage = .handling event position ∧ markOf verdict saves = .saved ∧
        (s.step store codec a).positions = (s.positions.save id position).2 := by
  cases a with
  | append call =>
    rw [step]
    split <;> exact .inl rfl
  | save other p => exact .inl (Positions.load_save_of_ne ha p s.positions)
  | delete other => exact .inl (Positions.load_delete_of_ne ha s.positions)
  | subscribe other start loads =>
    obtain ⟨hps, -⟩ :=
      Registry.subscribe_cases (load loads) (fun p => s.log.openFeed p) other start s.positions s.registry
    rcases hps with hps | hps <;> exact .inl (congrArg (Positions.load id) hps)
  | poll k =>
    simp only [step]
    split <;> exact .inl rfl
  | settle k verdict saves =>
    cases hk : s.registry.workers[k]? with
    | none => exact .inl (by simp only [step, hk])
    | some w =>
      cases hst : w.stage with
      | handling event position =>
        rw [step_settle hk hst]
        rcases settle_cases hst verdict saves s.positions with ⟨hsaved, he⟩ | ⟨-, outcome, he⟩
        · rw [he]
          by_cases hw : w.subscriber = id
          · subst hw
            exact .inr ⟨k, verdict, saves, w, event, position, rfl, ⟨hk, rfl⟩, hst, hsaved, rfl⟩
          · exact .inl (Positions.load_save_of_ne hw position s.positions)
        · rw [he]
          exact .inl rfl
      | _ =>
        rw [step_settle_of_ne hk fun event position hs => by simp [hst] at hs]
        exact .inl rfl
  | _ => exact .inl rfl

/-! ## The journal -/

/-- What a worker has handed over, and from where. -/
def route (s : System) (k : Nat) : List (Nat × StreamEvent) :=
  (s.journal.filter fun h => h.worker = k).map fun h => (h.place, h.event)

/-- What a worker hands over in going to its next event is added to its route. -/
theorem route_poll (hk : s.registry.workers[k]? = some w) (store codec : Codec) :
    (s.step store codec (.poll k)).route k =
      s.route k ++ (handover k w (w.poll codec s.log)).map fun h => (h.place, h.event) := by
  have hall : (handover k w (w.poll codec s.log)).filter (fun h => h.worker = k) =
      handover k w (w.poll codec s.log) := by
    rw [List.filter_eq_self]
    unfold handover
    split <;> simp
  rw [step_poll hk, route, List.filter_append, hall, List.map_append]
  rfl

/-- Nothing else is. -/
theorem route_step {a : Action} (ha : a ≠ .poll k) (store codec : Codec) (s : System) :
    (s.step store codec a).route k = s.route k := by
  cases a with
  | append call =>
    rw [step]
    split <;> rfl
  | poll j =>
    have hjk : j ≠ k := fun h => ha (h ▸ rfl)
    cases hj : s.registry.workers[j]? with
    | none => simp only [step, hj]
    | some v =>
      have hnone : (handover j v (v.poll codec s.log)).filter (fun h => h.worker = k) = [] := by
        rw [List.filter_eq_nil_iff]
        unfold handover
        split <;> simp [hjk]
      rw [step_poll hj, route, List.filter_append, hnone, List.append_nil]
      rfl
  | settle j verdict saves =>
    have hroute (m : Mark) : ((answer j m s.journal).filter fun h => h.worker = k).map (fun h => (h.place, h.event)) =
        s.route k := by
      rw [filter_answer j m s.journal fun _ _ => rfl, map_answer j m _ fun _ _ => rfl]
      rfl
    simp only [step]
    split
    · rfl
    · split
      · exact hroute _
      · rfl
  | _ => rfl

/-- A worker that has not been started yet has handed over nothing. -/
theorem route_of_length_le {log : EventLog} {positions : Positions}
    (hr : Reachable store codec Allowed (initial log positions) s) (hk : s.registry.workers.length ≤ k) :
    s.route k = [] := by
  induction hr with
  | first => rfl
  | @step s a _ _ ih =>
    have hold := Nat.le_trans (length_le_step store codec s a) hk
    by_cases ha : a = .poll k
    · subst ha
      simp only [step, List.getElem?_eq_none hold]
      exact ih hold
    · rw [route_step ha]
      exact ih hold

end System

end Chronicle
