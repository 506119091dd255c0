import Chronicle.Proofs.Subscription.Calls
import Chronicle.Proofs.Subscription.Restart

/-!
# One worker for each subscriber, and the one that is still on its way out

Whatever calls, workers and clients do, and in whatever order (`Contention.run`), a worker that has not finished is the
registered one of its id, or it was told to stop and the call that took it out waits for it. So an id has one worker at
most that is not told to stop, and one at most that has not finished as long as no call waits for one of its workers; a
subscription that gets the lock then is refused if there is one (`Contention.one_worker`). While such a call waits, the
id can be subscribed again, and an event may be in the hands of two handlers of the id (`Contention.two_workers`).
-/

namespace Chronicle

namespace Contention

/-- Calls have the lock one at a time, and every worker that has not finished is accounted for. -/
structure Orderly (c : Contention) : Prop where
  /-- The call with the lock is the only one, and the id for which it has it is not registered. -/
  reserved : ∀ (m : Nat) (call : Call) (id : String), c.calls[m]? = some call → call.held = some id →
    c.system.registry.registered.get? id = none ∧
      ∀ (n : Nat) (other : Call), c.calls[n]? = some other → n ≠ m → other.held = none
  listed : ∀ id k, c.system.registry.registered.get? id = some k →
    ∃ w, c.system.registry.Owns id k w ∧ w.stopped = false
  told : ∀ k, c.Awaits k → ∃ w, c.system.registry.workers[k]? = some w ∧ w.stopped = true
  accounted : ∀ id k w, c.system.registry.Owns id k w → w.isFinished = false →
    c.system.registry.registered.get? id = some k ∨ c.Awaits k

/-- No call waits for a worker of the id that has not finished. -/
def Clear (id : String) (c : Contention) : Prop :=
  ∀ k w, c.system.registry.Owns id k w → c.Awaits k → w.isFinished = true

section

variable {c : Contention} {store codec : Codec} {s : System} {r : Registry} {m n k : Nat} {call call' : Call}
  {id : String} {w : Worker} {answers : Bool}

theorem step_proceed (hn : c.calls[n]? = some call) (store codec : Codec) (answers : Bool) :
    c.step store codec (.proceed n answers) =
      ⟨{ c.system with registry := (call.proceed c.isFree answers c.system).2 },
        c.calls.set n (call.proceed c.isFree answers c.system).1⟩ := by
  simp only [step, hn]

theorem held_eq_none_of_isFree (h : c.isFree = true) (hm : c.calls[m]? = some call) : call.held = none := by
  simpa using List.all_eq_true.1 h call (List.mem_of_getElem? hm)

/-- After a step of a call, the other calls are where they were. -/
theorem getElem?_set_cases (h : (c.calls.set n call')[m]? = some call) :
    (m = n ∧ call = call') ∨ (m ≠ n ∧ c.calls[m]? = some call) := by
  rw [List.getElem?_set] at h
  by_cases hm : n = m
  · rw [if_pos hm] at h
    split at h
    · cases h
      exact .inl ⟨hm.symm, rfl⟩
    · cases h
  · rw [if_neg hm] at h
    exact .inr ⟨Ne.symm hm, h⟩

theorem awaits_set (h : c.Awaits k) (hn : c.calls[n]? = some call) (s : System) (call' : Call) :
    call.joins = some k ∨ (⟨s, c.calls.set n call'⟩ : Contention).Awaits k := by
  obtain ⟨x, hx, hk⟩ := h
  obtain ⟨m, hm⟩ := List.mem_iff_getElem?.1 hx
  by_cases hmn : n = m
  · subst hmn
    cases hn.symm.trans hm
    exact .inl hk
  · refine .inr ⟨x, List.mem_iff_getElem?.2 ⟨m, ?_⟩, hk⟩
    rw [List.getElem?_set_ne hmn, hm]

theorem awaits_of_set (h : (⟨s, c.calls.set n call'⟩ : Contention).Awaits k) : call'.joins = some k ∨ c.Awaits k := by
  obtain ⟨x, hx, hk⟩ := h
  rcases List.mem_or_eq_of_mem_set hx with hx | rfl
  · exact .inr ⟨x, hx, hk⟩
  · exact .inl hk

namespace Orderly

/-- A worker that is registered is not one that a call waits for. -/
theorem not_awaits (h : c.Orderly) (hk : c.system.registry.registered.get? id = some k) : ¬c.Awaits k := by
  intro ha
  obtain ⟨v, ho, hv⟩ := h.listed id k hk
  obtain ⟨w, hw, hs⟩ := h.told k ha
  cases ho.1.symm.trans hw
  simp [hv] at hs

theorem initial (log : EventLog) (positions : Positions) : (Contention.initial log positions).Orderly where
  reserved m call id hm := by cases hm
  listed id k hk := by cases hk
  told k ha := by
    obtain ⟨call, hc, -⟩ := ha
    cases hc
  accounted id k w ho := by cases ho.1

/-- A call that has just been made has no lock, and waits for no worker. -/
theorem request (h : c.Orderly) (request : Request) : (c.step store codec (.request request)).Orderly := by
  have hheld : request.call.held = none := by cases request <;> rfl
  have hjoins : request.call.joins = none := by cases request <;> rfl
  have hold : ∀ (m : Nat) call, (c.calls ++ [request.call])[m]? = some call →
      c.calls[m]? = some call ∨ call = request.call := by
    intro m call hm
    rcases List.mem_append.1 (List.mem_of_getElem? hm) with - | hx
    · rw [List.getElem?_append] at hm
      split at hm
      · exact .inl hm
      · exact .inr (by simpa using List.mem_of_getElem? hm)
    · exact .inr (by simpa using hx)
  have hawaits : ∀ k, (c.step store codec (.request request)).Awaits k ↔ c.Awaits k := by
    intro k
    simp [step, Awaits, List.mem_append, or_and_right, exists_or, hjoins]
  constructor
  case reserved =>
    intro m call id hm hid
    rcases hold m call hm with hm | rfl
    · obtain ⟨hnone, hothers⟩ := h.reserved m call id hm hid
      refine ⟨hnone, fun n other hn hne => ?_⟩
      rcases hold n other hn with hn | rfl
      · exact hothers n other hn hne
      · exact hheld
    · simp [hheld] at hid
  case listed => exact h.listed
  case told => exact fun k ha => h.told k ((hawaits k).1 ha)
  case accounted => exact fun id k w ho hf => (h.accounted id k w ho hf).imp_right (hawaits k).2

/-- What happens elsewhere finishes workers, but starts none and tells none to stop. -/
theorem elapse (h : c.Orderly) {a : Action} (ha : a.Outside) : (c.step store codec (.elapse a ha)).Orderly := by
  have hadv := System.advances_step store codec c.system ha
  constructor
  case reserved =>
    intro m call id hm hid
    simp only [step, hadv.registered]
    exact h.reserved m call id hm hid
  case listed =>
    intro id k hk
    simp only [step, hadv.registered] at hk
    obtain ⟨w, ho, hs⟩ := h.listed id k hk
    obtain ⟨w', hw', hww'⟩ := hadv.getElem? ho.1
    exact ⟨w', ⟨hw', hww'.subscriber.trans ho.2⟩, hww'.stopped.trans hs⟩
  case told =>
    intro k hk
    obtain ⟨w, hw, hs⟩ := h.told k hk
    obtain ⟨w', hw', hww'⟩ := hadv.getElem? hw
    exact ⟨w', hw', hww'.stopped.trans hs⟩
  case accounted =>
    intro id k w' ho hf
    obtain ⟨w, hw, hww'⟩ := hadv.exists_of_getElem? ho.1
    have hfin : w.isFinished = false := by
      cases hfin : w.isFinished with
      | false => rfl
      | true =>
        rw [hww'.finished hfin, hfin] at hf
        cases hf
    simp only [step, hadv.registered]
    exact h.accounted id k w ⟨hw, hww'.subscriber.symm.trans ho.2⟩ hfin

/-! ### A call goes on -/

/-- The registry stays as it is: a worker that nobody waits for any more has finished. -/
theorem quiet (h : c.Orderly) (hn : c.calls[n]? = some call) (hheld : ∀ id, call'.held = some id → call.held = some id)
    (hjoins : ∀ k, call'.joins = some k → call.joins = some k)
    (hjoined : ∀ k, call.joins = some k →
      call'.joins = some k ∨ ∃ outcome, c.system.registry.outcome? k = some outcome) :
    (⟨c.system, c.calls.set n call'⟩ : Contention).Orderly := by
  constructor
  case reserved =>
    intro m x id hm hid
    rcases getElem?_set_cases hm with ⟨rfl, rfl⟩ | ⟨hmn, hm⟩
    · obtain ⟨hnone, hothers⟩ := h.reserved m call id hn (hheld id hid)
      refine ⟨hnone, fun j y hj hne => ?_⟩
      exact hothers j y ((getElem?_set_cases hj).resolve_left fun hj => hne hj.1).2 hne
    · obtain ⟨hnone, hothers⟩ := h.reserved m x id hm hid
      refine ⟨hnone, fun j y hj hne => ?_⟩
      rcases getElem?_set_cases hj with ⟨rfl, rfl⟩ | ⟨-, hj⟩
      · have hc := hothers j call hn hne
        refine Option.eq_none_iff_forall_ne_some.2 fun other ho => ?_
        simp [hheld other ho] at hc
      · exact hothers j y hj hne
  case listed => exact h.listed
  case told =>
    intro k hk
    rcases awaits_of_set hk with hk | hk
    · exact h.told k ⟨call, List.mem_of_getElem? hn, hjoins k hk⟩
    · exact h.told k hk
  case accounted =>
    intro id k w ho hf
    refine (h.accounted id k w ho hf).imp_right fun hk => ?_
    rcases awaits_set hk hn _ call' with hj | hk
    · rcases hjoined k hj with hj' | ⟨outcome, hout⟩
      · exact ⟨call', List.mem_set ((List.getElem?_eq_some_iff.1 hn).1) call', hj'⟩
      · rw [Registry.outcome?, ho.1] at hout
        simp [Worker.isFinished_iff.2 ⟨outcome, hout⟩] at hf
    · exact hk

/-- An id that is not running is forgotten: nothing but a finished worker was registered for it. -/
theorem enter (h : c.Orderly) (hn : c.calls[n]? = some call) (hfree : c.isFree = true)
    (hrun : c.system.registry.isRunning id = false) (hheld : call'.held = some id) (hjoins : call.joins = none)
    (hjoins' : call'.joins = none) :
    (⟨{ c.system with
        registry := { c.system.registry with registered := c.system.registry.registered.erase id } },
      c.calls.set n call'⟩ : Contention).Orderly := by
  constructor
  case reserved =>
    intro m x other hm hother
    rcases getElem?_set_cases hm with ⟨rfl, rfl⟩ | ⟨-, hm⟩
    · obtain rfl : id = other := Option.some.inj (hheld.symm.trans hother)
      refine ⟨by simp [NameMap.get?_erase], fun j y hj hne => ?_⟩
      exact held_eq_none_of_isFree hfree ((getElem?_set_cases hj).resolve_left fun hj => hne hj.1).2
    · simp [held_eq_none_of_isFree hfree hm] at hother
  case listed =>
    intro other k hk
    rw [NameMap.get?_erase] at hk
    split at hk
    · cases hk
    · exact h.listed other k hk
  case told =>
    intro k hk
    exact h.told k ((awaits_of_set hk).resolve_left (by simp [hjoins']))
  case accounted =>
    intro other k w ho hf
    rcases h.accounted other k w ho hf with hk | hk
    · left
      rw [NameMap.get?_erase, if_neg, hk]
      rintro rfl
      simp [Registry.isRunning, Registry.worker?, hk, ho.1, hf] at hrun
    · exact .inr ((awaits_set hk hn _ call').resolve_left (by simp [hjoins]))

/-- A worker is started for the id for which the lock is held: none was registered for it. -/
theorem spawn (h : c.Orderly) (hn : c.calls[n]? = some call) (feed : Feed) (hheld : call.held = some id)
    (hheld' : call'.held = none) (hjoins : call.joins = none) (hjoins' : call'.joins = none) :
    (⟨{ c.system with registry := c.system.registry.spawn id feed }, c.calls.set n call'⟩ : Contention).Orderly := by
  obtain ⟨hnone, hothers⟩ := h.reserved n call id hn hheld
  have hr : (c.system.registry.spawn id feed).workers = c.system.registry.workers ++ [.start id feed] := rfl
  constructor
  case reserved =>
    intro m x other hm hother
    rcases getElem?_set_cases hm with ⟨rfl, rfl⟩ | ⟨hmn, hm⟩
    · simp [hheld'] at hother
    · simp [hothers m x hm hmn] at hother
  case listed =>
    intro other k hk
    simp only [Registry.spawn, NameMap.get?_insert] at hk
    split at hk
    · cases hk
      rename_i hid
      exact ⟨.start id feed, ⟨by simp [Registry.spawn], hid⟩, rfl⟩
    · obtain ⟨w, ho, hs⟩ := h.listed other k hk
      exact ⟨w, ho.append hr, hs⟩
  case told =>
    intro k hk
    obtain ⟨w, hw, hs⟩ := h.told k ((awaits_of_set hk).resolve_left (by simp [hjoins']))
    exact ⟨w, (Registry.Owns.append ⟨hw, rfl⟩ hr).1, hs⟩
  case accounted =>
    intro other k w ho hf
    simp only [Registry.spawn, NameMap.get?_insert]
    rcases Registry.owns_append hr ho with ⟨rfl, rfl⟩ | hold
    · exact .inl (if_pos ho.2)
    · rcases h.accounted other k w hold hf with hk | hk
      · left
        rw [if_neg, hk]
        rintro rfl
        simp [hnone] at hk
      · exact .inr ((awaits_set hk hn _ call').resolve_left (by simp [hjoins]))

/-- An id is taken out: from then on the call waits for its worker. -/
theorem release (h : c.Orderly) (hn : c.calls[n]? = some call) (hfree : c.isFree = true)
    (hk : c.system.registry.registered.get? id = some k) (hheld' : call'.held = none) (hjoins : call.joins = none)
    (hjoins' : call'.joins = some k) :
    (⟨{ c.system with
        registry :=
          { c.system.registry with registered := c.system.registry.registered.erase id }.update k .stop },
      c.calls.set n call'⟩ : Contention).Orderly := by
  obtain ⟨v, hv, hvs⟩ := h.listed id k hk
  constructor
  case reserved =>
    intro m x other hm hother
    rcases getElem?_set_cases hm with ⟨rfl, rfl⟩ | ⟨-, hm⟩
    · simp [hheld'] at hother
    · simp [held_eq_none_of_isFree hfree hm] at hother
  case listed =>
    intro other j hj
    simp only [Registry.update, NameMap.get?_erase] at hj
    split at hj
    · cases hj
    · rename_i hne
      obtain ⟨w, ho, hs⟩ := h.listed other j hj
      have hjk : k ≠ j := by
        rintro rfl
        cases hv.1.symm.trans ho.1
        exact hne (hv.2.symm.trans ho.2)
      exact ⟨w, ⟨by rw [Registry.getElem?_update, ho.1]; simp [hjk], ho.2⟩, hs⟩
  case told =>
    intro j hj
    simp only [Registry.getElem?_update]
    rcases awaits_of_set hj with hj | hj
    · obtain rfl : k = j := Option.some.inj (hjoins'.symm.trans hj)
      exact ⟨v.stop, by simp [hv.1], rfl⟩
    · obtain ⟨w, hw, hs⟩ := h.told j hj
      rw [hw]
      refine ⟨_, rfl, ?_⟩
      split
      · rfl
      · exact hs
  case accounted =>
    intro other j w' ho hf
    by_cases hjk : j = k
    · subst hjk
      exact .inr ⟨call', List.mem_set ((List.getElem?_eq_some_iff.1 hn).1) call', hjoins'⟩
    · have hold : c.system.registry.Owns other j w' := by
        refine ⟨?_, ho.2⟩
        have hw := ho.1
        rw [Registry.getElem?_update] at hw
        simpa [Ne.symm hjk] using hw
      rcases h.accounted other j w' hold hf with hj | hj
      · left
        simp only [Registry.update, NameMap.get?_erase]
        rw [if_neg, hj]
        rintro rfl
        exact hjk (Option.some.inj (hj.symm.trans hk))
      · exact .inr ((awaits_set hj hn _ call').resolve_left (by simp [hjoins]))

/-- Whatever a call does to the registry, every worker remains accounted for. -/
theorem of_effect (h : c.Orderly) (hn : c.calls[n]? = some call) (he : call.Effect c.isFree c.system.registry call' r) :
    (⟨{ c.system with registry := r }, c.calls.set n call'⟩ : Contention).Orderly := by
  cases he with
  | quiet hheld hjoins hjoined => exact h.quiet hn hheld hjoins hjoined
  | enter id hfree hrun hheld hjoins hjoins' => exact h.enter hn hfree hrun hheld hjoins hjoins'
  | spawn id feed hheld hheld' hjoins hjoins' => exact h.spawn hn feed hheld hheld' hjoins hjoins'
  | release id k hfree hk hheld' hjoins hjoins' => exact h.release hn hfree hk hheld' hjoins hjoins'

theorem step (h : c.Orderly) (move : Move) : (c.step store codec move).Orderly := by
  cases move with
  | request r => exact h.request r
  | elapse a ha => exact h.elapse ha
  | proceed n answers =>
    cases hn : c.calls[n]? with
    | none =>
      simp only [Contention.step, hn]
      exact h
    | some call =>
      rw [step_proceed hn]
      exact h.of_effect hn (Call.effect_proceed c.isFree answers c.system call)

theorem run (h : c.Orderly) (moves : List Move) : (c.run store codec moves).Orderly := by
  induction moves generalizing c with
  | nil => exact h
  | cons move rest ih => exact ih (h.step move)

/-- As long as no call waits for a worker of an id that has not finished, the id has one such worker at most. -/
theorem unique (h : c.Orderly) (hclear : c.Clear id) {j : Nat} {v : Worker} (hv : c.system.registry.Owns id j v)
    (hw : c.system.registry.Owns id k w) (hvf : v.isFinished = false) (hwf : w.isFinished = false) : j = k := by
  have hregistered : ∀ i u, c.system.registry.Owns id i u → u.isFinished = false →
      c.system.registry.registered.get? id = some i := by
    intro i u ho hf
    refine (h.accounted id i u ho hf).resolve_right fun ha => ?_
    simp [hclear i u ho ha] at hf
  exact Option.some.inj ((hregistered j v hv hvf).symm.trans (hregistered k w hw hwf))

/-- A subscription that gets the lock then is refused if the id has such a worker. -/
theorem refuses (h : c.Orderly) (hclear : c.Clear id) (hfree : c.isFree = true) {start : StartAt}
    (hn : c.calls[n]? = some (.subscribe id start .entering)) (ho : c.system.registry.Owns id k w)
    (hf : w.isFinished = false) :
    c.step store codec (.proceed n answers) =
      { c with calls := c.calls.set n (.subscribe id start (.returned (.error (.alreadySubscribed id)))) } := by
  have hk : c.system.registry.registered.get? id = some k := by
    refine (h.accounted id k w ho hf).resolve_right fun ha => ?_
    simp [hclear k w ho ha] at hf
  have hrun : c.system.registry.isRunning id = true := by
    simp [Registry.isRunning, Registry.worker?, hk, ho.1, hf]
  rw [step_proceed hn, hfree]
  simp only [Call.proceed, Subscribing.proceed, hrun, if_true]

end Orderly

/-! ## Workers that were told to stop -/

/-- A worker that was told to stop is handed nothing any more. -/
theorem stopped_step (hk : c.system.registry.workers[k]? = some w) (hs : w.stopped = true) (store codec : Codec)
    (move : Move) :
    (∃ w', (c.step store codec move).system.registry.workers[k]? = some w' ∧ w'.stopped = true) ∧
      (c.step store codec move).system.route k = c.system.route k := by
  cases move with
  | request r => exact ⟨⟨w, hk, hs⟩, rfl⟩
  | elapse a ha =>
    obtain ⟨w', hw', hadv⟩ := (System.advances_step store codec c.system ha).getElem? hk
    refine ⟨⟨w', hw', hadv.stopped.trans hs⟩, ?_⟩
    by_cases hpoll : a = .poll k
    · subst hpoll
      simp only [step]
      rw [System.route_poll hk, System.handover_eq_nil (Worker.stage_poll_of_stopped codec c.system.log hs)]
      simp
    · exact System.route_step hpoll store codec c.system
  | proceed n answers =>
    cases hn : c.calls[n]? with
    | none =>
      simp only [step, hn]
      exact ⟨⟨w, hk, hs⟩, trivial⟩
    | some call =>
      rw [step_proceed hn]
      refine ⟨?_, rfl⟩
      have he := Call.effect_proceed c.isFree answers c.system call
      generalize (call.proceed c.isFree answers c.system).2 = r at he
      cases he with
      | quiet => exact ⟨w, hk, hs⟩
      | enter => exact ⟨w, hk, hs⟩
      | spawn id feed => exact ⟨w, (Registry.Owns.append ⟨hk, rfl⟩ rfl).1, hs⟩
      | release id j =>
        simp only [Registry.getElem?_update, hk]
        refine ⟨_, rfl, ?_⟩
        split
        · rfl
        · exact hs

theorem route_run_of_stopped (hk : c.system.registry.workers[k]? = some w) (hs : w.stopped = true)
    (store codec : Codec) (moves : List Move) : (c.run store codec moves).system.route k = c.system.route k := by
  induction moves generalizing c w with
  | nil => rfl
  | cons move rest ih =>
    obtain ⟨⟨w', hw', hs'⟩, hroute⟩ := stopped_step hk hs store codec move
    exact (ih hw' hs').trans hroute

end

/-! ## One worker for each subscriber -/

/-- **One worker for each subscriber**: a worker that has not finished is the registered one of its id and not told to
stop, or it was told to stop, a call waits for it, and it is handed nothing more. As long as no call waits for such a
worker of the id, the id has one worker at most that has not finished, and a subscription that gets the lock is refused
if there is one. -/
theorem one_worker (store codec : Codec) (log : EventLog) (positions : Positions) (moves : List Move) (id : String) :
    let c := (initial log positions).run store codec moves
    let r := c.system.registry
    (∀ k w, r.Owns id k w → w.isFinished = false →
        (r.registered.get? id = some k ∧ w.stopped = false ∧ ¬c.Awaits k) ∨
          (r.registered.get? id ≠ some k ∧ w.stopped = true ∧ c.Awaits k ∧
            ∀ later, (c.run store codec later).system.route k = c.system.route k)) ∧
      (c.Clear id →
        (∀ j v k w, r.Owns id j v → r.Owns id k w → v.isFinished = false → w.isFinished = false → j = k) ∧
          ∀ k w n start answers, r.Owns id k w → w.isFinished = false → c.isFree = true →
            c.calls[n]? = some (.subscribe id start .entering) →
            c.step store codec (.proceed n answers) =
              { c with
                calls := c.calls.set n (.subscribe id start (.returned (.error (.alreadySubscribed id)))) }) := by
  intro c r
  have h : c.Orderly := (Orderly.initial log positions).run moves
  refine ⟨fun k w ho hf => ?_, fun hclear => ⟨?_, ?_⟩⟩
  · rcases h.accounted id k w ho hf with hk | ha
    · obtain ⟨v, hv, hs⟩ := h.listed id k hk
      cases hv.1.symm.trans ho.1
      exact .inl ⟨hk, hs, h.not_awaits hk⟩
    · obtain ⟨v, hv, hs⟩ := h.told k ha
      cases hv.symm.trans ho.1
      exact .inr ⟨fun hk => h.not_awaits hk ha, hs, ha, route_run_of_stopped ho.1 hs store codec⟩
  · exact fun j v k w hv hw hvf hwf => h.unique hclear hv hw hvf hwf
  · exact fun k w n start answers ho hf hfree hn => h.refuses hclear hfree hn ho hf

/-! An event in the hands of a handler, and calls that come before it is answered. -/

/-- A subscription from the beginning, all the way. -/
def subscribed (call : Nat) : List Move :=
  .request (.subscribe "a" .beginning) :: List.replicate 4 (.proceed call true)

/-- The handler of a subscriber has an event. -/
def firstHandled : List Move := subscribed 0 ++ [.elapse System.appendNote trivial, .elapse (.poll 0) trivial]

/-- The same subscriber is subscribed once more. -/
def again : Contention :=
  (initial .empty .empty).run System.blanks System.blanks (firstHandled ++ [.request (.subscribe "a" .beginning)])

/-- The subscriber is taken out, and subscribed again while its handler still has the event. -/
def overlapping : Contention :=
  (initial .empty .empty).run System.blanks System.blanks
    (firstHandled ++ [.request (.unsubscribe "a"), .proceed 1 true] ++ subscribed 2 ++ [.elapse (.poll 1) trivial])

/-- The worker with the first event, when it was not told to stop. -/
def firstWorker (stopped : Bool) : Worker :=
  ⟨"a", .ofLog 1, stopped, .handling ⟨"s", 0, System.note⟩ (EventLog.positionOf 0)⟩

theorem one_worker_again :
    (again.Clear "a" ∧ again.system.registry.Owns "a" 0 (firstWorker false) ∧ again.isFree = true ∧
        again.calls[1]? = some (.subscribe "a" .beginning .entering)) ∧
      again.step System.blanks System.blanks (.proceed 1 true) =
        { again with
          calls := again.calls.set 1 (.subscribe "a" .beginning (.returned (.error (.alreadySubscribed "a")))) } := by
  have hcalls : again.calls =
      [.subscribe "a" .beginning (.returned (.ok ())), .subscribe "a" .beginning .entering] := by with_unfolding_all rfl
  have hclear : again.Clear "a" := by
    rintro k w - ⟨call, hc, hk⟩
    rw [hcalls] at hc
    simp only [List.mem_cons, List.not_mem_nil, or_false] at hc
    rcases hc with rfl | rfl <;> cases hk
  have ho : again.system.registry.Owns "a" 0 (firstWorker false) := ⟨by with_unfolding_all rfl, rfl⟩
  have hfree : again.isFree = true := by with_unfolding_all rfl
  have hn : again.calls[1]? = some (.subscribe "a" .beginning .entering) := by rw [hcalls]; rfl
  refine ⟨⟨hclear, ho, hfree, hn⟩, ?_⟩
  exact ((one_worker System.blanks System.blanks .empty .empty _ "a").2 hclear).2 0 _ 1 .beginning true ho rfl hfree hn

/-- Two workers of one subscriber have the same event in their hands: the second one was started while the call that
took the first one out was waiting for it. -/
theorem two_workers :
    overlapping.system.registry.Owns "a" 0 (firstWorker true) ∧
      overlapping.system.registry.Owns "a" 1 (firstWorker false) ∧
      (firstWorker true).isFinished = false ∧ (firstWorker false).isFinished = false ∧
      overlapping.calls = [.subscribe "a" .beginning (.returned (.ok ())), .unsubscribe "a" (.joining 0),
        .subscribe "a" .beginning (.returned (.ok ()))] :=
  ⟨⟨by with_unfolding_all rfl, rfl⟩, ⟨by with_unfolding_all rfl, rfl⟩, rfl, rfl, by with_unfolding_all rfl⟩

end Contention

end Chronicle
