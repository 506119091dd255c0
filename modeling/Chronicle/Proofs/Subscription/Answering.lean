import Chronicle.Proofs.Subscription.Usage

/-!
# Every call is answered

A worker that was told to stop finishes once its handler has answered (`Worker.isFinished_poll_settle`). So the worker
that a call waits for can always finish, and in every sound state the call that is still to be answered can be, without
another one being made (`Usage.Sound.answerable`).
-/

namespace Chronicle

namespace Usage

variable {σ : Type} {stores : Stores σ} {codec : Codec} {c : Usage σ} {call : Call}

/-- Without another call, what is still to be answered can be. -/
def Answerable (stores : Stores σ) (codec : Codec) (c : Usage σ) : Prop :=
  ∃ m, Uncalled m ∧ (run stores codec m c).call = none

theorem answerable_of_none (h : c.call = none) : c.Answerable stores codec := ⟨[], uncalled_nil, h⟩

theorem Answerable.of_run {m : List (Move σ)} (hm : Uncalled m) (h : (run stores codec m c).Answerable stores codec) :
    c.Answerable stores codec := by
  obtain ⟨m', hm', hc⟩ := h
  exact ⟨m ++ m', uncalled_append.2 ⟨hm, hm'⟩, by rwa [run_append]⟩

theorem Answerable.proceed (hcall : c.call = some call) (h : (c.goOn stores call).Answerable stores codec) :
    c.Answerable stores codec := by
  refine .of_run (m := [.proceed]) (uncalled_cons.2 ⟨nofun, uncalled_nil⟩) ?_
  rwa [run_cons, run_nil, step_proceed hcall]

end Usage

/-- A worker that was told to stop finishes when its handler has answered. -/
theorem Worker.isFinished_poll_settle {σ : Type} {w : Worker} (h : w.stopped = true)
    (save : String → Position → σ → Except StoreError SaveOutcome × σ) (verdict : Verdict) (s : σ) (codec : Codec)
    (log : EventLog) : ((w.settle save verdict s).1.poll codec log).isFinished = true := by
  cases hst : w.stage with
  | idle => simp [settle, poll, isFinished, finish, hst, h]
  | finished outcome => simp [settle, poll, isFinished, hst]
  | handling event position =>
    cases verdict with
    | success =>
      cases hs : save w.subscriber position s with
      | mk saved s' =>
        cases saved with
        | error e => simp [settle, poll, isFinished, finish, hst, hs]
        | ok outcome => simp [settle, poll, isFinished, finish, hst, hs, h]
    | _ => simp [settle, poll, isFinished, finish, hst]

namespace Usage

variable {σ : Type} {stores : Stores σ} {codec : Codec} {c : Usage σ} {call : Call} {k : Nat} {id : String}
  {start : StartAt}

/-- The worker that a call waits for can finish. -/
theorem Sound.exists_outcome (h : c.Sound) (hcall : c.call = some call) (hk : call.joins = some k) (stores : Stores σ)
    (codec : Codec) : ∃ m, Uncalled m ∧ (Usage.run stores codec m c).call = some call ∧
      ∃ outcome, (Usage.run stores codec m c).registry.outcome? k = some outcome := by
  obtain ⟨w, hw, hs⟩ := h.stops call hcall k hk
  refine ⟨[.settle k .success, .poll k], by simp [Uncalled], ?_, ?_⟩
  · simp [Usage.step, hw, hcall]
  · have hfin := Worker.isFinished_poll_settle hs stores.save .success c.store codec
      (stores.log (w.settle stores.save .success c.store).2)
    obtain ⟨outcome, ho⟩ := Worker.isFinished_iff.1 hfin
    refine ⟨outcome, ?_⟩
    simp [Usage.step, hw, Registry.outcome?, Registry.getElem?_update, ho]

/-! ### Subscribing -/

theorem answerable_opening {saved : Option Position} (hcall : c.call = some (.subscribe id start (.opening saved))) :
    c.Answerable stores codec := by
  refine .proceed hcall (answerable_of_none ?_)
  cases hf : stores.openFeed (start.position saved) c.store with
  | _ => simp [goOn, Call.advance, Subscribing.advance, Call.answer?, hf]

theorem answerable_loading (hcall : c.call = some (.subscribe id start .loading)) : c.Answerable stores codec := by
  refine .proceed hcall ?_
  cases hl : stores.load id c.store with
  | mk loaded s =>
    cases loaded with
    | error e => exact answerable_of_none (by simp [goOn, Call.advance, Subscribing.advance, Call.answer?, hl])
    | ok saved =>
      have hcall' : (c.goOn stores (.subscribe id start .loading)).call =
          some (.subscribe id start (.opening saved)) := by
        simp [goOn, Call.advance, Subscribing.advance, Call.answer?, hl]
      exact answerable_opening hcall'

theorem answerable_clearing (hcall : c.call = some (.subscribe id start .clearing)) : c.Answerable stores codec :=
  .proceed hcall (answerable_loading rfl)

theorem answerable_subscribe (stage : Subscribing) (hcall : c.call = some (.subscribe id start stage)) :
    c.Answerable stores codec := by
  cases stage with
  | entering =>
    refine .proceed hcall ?_
    cases hrun : c.registry.isRunning id with
    | true => exact answerable_of_none (by simp [goOn, Call.advance, Subscribing.advance, Call.answer?, hrun])
    | false =>
      have hcall' : (c.goOn stores (.subscribe id start .entering)).call = some (.subscribe id start .clearing) := by
        simp [goOn, Call.advance, Subscribing.advance, Call.answer?, hrun]
      exact answerable_clearing hcall'
  | clearing => exact answerable_clearing hcall
  | loading => exact answerable_loading hcall
  | opening saved => exact answerable_opening hcall
  | returned outcome => exact .proceed hcall (answerable_of_none rfl)

/-! ### Unsubscribing and shutting down -/

theorem Sound.answerable_release (h : c.Sound) (hcall : c.call = some (.unsubscribe id (.joining k))) :
    c.Answerable stores codec := by
  obtain ⟨m, hm, hcall', outcome, ho⟩ := h.exists_outcome hcall rfl stores codec
  refine .of_run hm (.proceed hcall' (answerable_of_none ?_))
  simp [Usage.goOn, Call.advance, Unsubscribing.proceed, Call.answer?, ho]

theorem Sound.answerable_unsubscribe (h : c.Sound) (stage : Unsubscribing)
    (hcall : c.call = some (.unsubscribe id stage)) : c.Answerable stores codec := by
  cases stage with
  | entering =>
    refine .proceed hcall ?_
    cases hk : c.registry.registered.get? id with
    | none =>
      refine answerable_of_none ?_
      simp [Usage.goOn, Call.advance, Unsubscribing.proceed, Registry.release, Call.answer?, hk]
    | some k =>
      have hcall' : (c.goOn stores (.unsubscribe id .entering)).call = some (.unsubscribe id (.joining k)) := by
        simp [Usage.goOn, Call.advance, Unsubscribing.proceed, Registry.release, Call.answer?, hk]
      exact (h.goOn (h.stops _ hcall) stores).answerable_release hcall'
  | joining k => exact h.answerable_release hcall
  | returned outcome => exact .proceed hcall (answerable_of_none rfl)

/-- A call to shut down, if there is one, is about to take the next id out. -/
def AtNext (closed : List (String × Outcome)) (rest : List String) (c : Usage σ) : Prop :=
  ∀ call, c.call = some call → call = .shutdown (.next closed rest)

theorem Sound.answerable_joining {closed : List (String × Outcome)} {rest : List String} (h : c.Sound)
    (hcall : c.call = some (.shutdown (.closing closed id (.joining k) rest)))
    (hnext : ∀ (c : Usage σ) (closed), c.Sound → c.AtNext closed rest → c.Answerable stores codec) :
    c.Answerable stores codec := by
  obtain ⟨m, hm, hcall', outcome, ho⟩ := h.exists_outcome hcall rfl stores codec
  have hrun := h.run stores codec m
  have hsound := hrun.goOn (hrun.stops _ hcall') stores
  refine .of_run hm (.proceed hcall' (hnext _ (closed ++ [(id, outcome)]) hsound fun call hc => ?_))
  obtain ⟨rfl, -⟩ := call_goOn hc
  simp only [Call.advance, ShuttingDown.proceed, Unsubscribing.proceed, ho]

/-- By induction on the ids that are still to be taken out. -/
theorem Sound.answerable_next (h : c.Sound) (closed : List (String × Outcome)) (rest : List String)
    (hnext : c.AtNext closed rest) : c.Answerable stores codec := by
  induction rest generalizing c closed with
  | nil =>
    cases hcall : c.call with
    | none => exact answerable_of_none hcall
    | some call =>
      obtain rfl := hnext call hcall
      exact .proceed hcall (answerable_of_none rfl)
  | cons id rest ih =>
    cases hcall : c.call with
    | none => exact answerable_of_none hcall
    | some call =>
      obtain rfl := hnext call hcall
      have hsound := h.goOn (h.stops _ hcall) stores
      refine .proceed hcall ?_
      cases hk : c.registry.registered.get? id with
      | none =>
        refine ih hsound (closed ++ [(id, .error (.notSubscribed id))]) fun call hc => ?_
        obtain ⟨rfl, -⟩ := call_goOn hc
        simp [Call.advance, ShuttingDown.next, ShuttingDown.proceed, Unsubscribing.proceed, Registry.release, hk]
      | some k =>
        have hcall' : (c.goOn stores (.shutdown (.next closed (id :: rest)))).call =
            some (.shutdown (.closing closed id (.joining k) rest)) := by
          simp [Usage.goOn, Call.advance, ShuttingDown.next, ShuttingDown.proceed, Unsubscribing.proceed,
            Registry.release, Call.answer?, hk]
        exact hsound.answerable_joining hcall' fun _ closed hs hn => ih hs closed hn

theorem Sound.answerable_shutdown (h : c.Sound) (stage : ShuttingDown) (hcall : c.call = some (.shutdown stage)) :
    c.Answerable stores codec := by
  have hsound := h.goOn (h.stops _ hcall) stores
  cases stage with
  | entering => exact .proceed hcall (hsound.answerable_next [] c.registry.ids fun call hc => (call_goOn hc).1.symm)
  | closing closed id stage rest =>
    cases stage with
    | entering =>
      refine h.answerable_next closed (id :: rest) fun call hc => ?_
      cases hcall.symm.trans hc
      rfl
    | joining k => exact h.answerable_joining hcall fun _ closed hs hn => hs.answerable_next closed rest hn
    | returned outcome =>
      exact .proceed hcall
        (hsound.answerable_next (closed ++ [(id, outcome)]) rest fun call hc => (call_goOn hc).1.symm)
  | returned outcomes => exact .proceed hcall (answerable_of_none rfl)

/-- The call of a sound state can be brought to its answer. -/
theorem Sound.answerable (h : c.Sound) (stores : Stores σ) (codec : Codec) : c.Answerable stores codec := by
  cases hcall : c.call with
  | none => exact answerable_of_none hcall
  | some call =>
    cases call with
    | subscribe id start stage => exact answerable_subscribe stage hcall
    | unsubscribe id stage => exact h.answerable_unsubscribe stage hcall
    | shutdown stage => exact h.answerable_shutdown stage hcall

end Usage

end Chronicle
