import Chronicle.Proofs.Subscription.Usage

/-!
# How workers end

A worker ends in one of seven ways (`Ending`), which its feed, its codec, its handler and its stores decide
(`Worker.pollEnding?`, `Worker.settleEnding?`). Its outcome is the one of the first ending that it meets, whatever
calls come in between (`Usage.outcome?_run`).
-/

namespace Chronicle

/-- What ends a worker. -/
inductive Ending where
  /-- It finds that it was told to stop. -/
  | stopped
  | feedEnded
  /-- Its feed yields an error. -/
  | feedFailed (e : StoreError)
  | undecodable (e : DecodingError)
  | handlerFailed (event : StreamEvent) (reason : String)
  | saveFailed (e : StoreError)
  | panicked

/-- What a subscriber's worker returns. -/
def Ending.outcome (subscriber : String) : Ending → Outcome
  | .stopped | .feedEnded => .ok ()
  | .feedFailed e | .saveFailed e => .error (.store e)
  | .undecodable e => .error (.store (.decoding e))
  | .handlerFailed event reason => .error (.handler subscriber event.stream event.version reason)
  | .panicked => .error (.panicked subscriber)

namespace Worker

/-- What ends a worker that goes to its next event, if something does. -/
def pollEnding? (codec : Codec) (log : EventLog) (w : Worker) : Option Ending :=
  match w.stage with
  | .idle =>
    if w.stopped then some .stopped
    else
      match log.poll w.feed with
      | .item (.error e) _ => some (.feedFailed e)
      | .item (.ok change) _ =>
        match codec.decode change.document with
        | .error e => some (.undecodable e)
        | .ok _ => none
      | .waiting => none
      | .ended => some .feedEnded
  | _ => none

/-- What ends a worker whose handler answers, if something does. -/
def settleEnding? {σ : Type} (save : String → Position → σ → Except StoreError SaveOutcome × σ) (verdict : Verdict)
    (s : σ) (w : Worker) : Option Ending :=
  match w.stage, verdict with
  | .handling _ position, .success =>
    match (save w.subscriber position s).1 with
    | .error e => some (.saveFailed e)
    | .ok _ => none
  | .handling event _, .failure reason => some (.handlerFailed event reason)
  | .handling _ _, .panic => some .panicked
  | _, _ => none

theorem outcome?_poll (codec : Codec) (log : EventLog) (w : Worker) :
    (w.poll codec log).outcome? = w.outcome?.or ((w.pollEnding? codec log).map (Ending.outcome w.subscriber)) := by
  cases hst : w.stage with
  | idle =>
    cases hs : w.stopped with
    | true => simp [poll, pollEnding?, outcome?, finish, Ending.outcome, hst, hs]
    | false =>
      cases hp : log.poll w.feed with
      | item item rest =>
        cases item with
        | error e => simp [poll, pollEnding?, receive, outcome?, finish, Ending.outcome, hst, hs, hp]
        | ok change =>
          cases hd : codec.decode change.document with
          | error e => simp [poll, pollEnding?, receive, outcome?, finish, Ending.outcome, hst, hs, hp, hd]
          | ok event => simp [poll, pollEnding?, receive, outcome?, hst, hs, hp, hd]
      | waiting => simp [poll, pollEnding?, outcome?, hst, hs, hp]
      | ended => simp [poll, pollEnding?, outcome?, finish, Ending.outcome, hst, hs, hp]
  | _ => simp [poll, pollEnding?, outcome?, hst]

theorem outcome?_settle {σ : Type} (save : String → Position → σ → Except StoreError SaveOutcome × σ)
    (verdict : Verdict) (s : σ) (w : Worker) :
    (w.settle save verdict s).1.outcome? =
      w.outcome?.or ((w.settleEnding? save verdict s).map (Ending.outcome w.subscriber)) := by
  cases hst : w.stage with
  | handling event position =>
    cases verdict with
    | success =>
      cases hs : save w.subscriber position s with
      | mk saved s' =>
        cases saved with
        | error e => simp [settle, settleEnding?, outcome?, finish, Ending.outcome, hst, hs]
        | ok outcome => simp [settle, settleEnding?, outcome?, hst, hs]
    | _ => simp [settle, settleEnding?, outcome?, finish, Ending.outcome, hst]
  | _ => simp [settle, settleEnding?, outcome?, hst]

end Worker

namespace Usage

variable {σ : Type} (stores : Stores σ) (codec : Codec) (k : Nat)

/-- What ends the worker with a number in a step, if something does. -/
def ending? (c : Usage σ) : Move σ → Option Ending
  | .poll j => if j = k then c.registry.workers[k]? >>= Worker.pollEnding? codec (stores.log c.store) else none
  | .settle j verdict =>
    if j = k then c.registry.workers[k]? >>= Worker.settleEnding? stores.save verdict c.store else none
  | .request _ | .proceed | .elapse _ => none

/-- What ends the worker with a number in some steps. -/
def endings : List (Move σ) → Usage σ → List Ending
  | [], _ => []
  | move :: moves, c => (c.ending? stores codec k move).toList ++ endings moves (c.step stores codec move)

variable {stores codec k} {c : Usage σ} {move : Move σ} {moves : List (Move σ)} {call : Call} {id : String}

/-! ## One step -/

theorem owner?_goOn (h : c.registry.owner? k = some id) : (c.goOn stores call).registry.owner? k = some id := by
  have he := call.effect_advance stores c.store c.registry
  show (call.advance stores c.store c.registry).2.2.owner? k = some id
  obtain ⟨w, hw, hid⟩ := Registry.owner?_eq_some_iff.1 h
  rw [Registry.owner?_eq_some_iff]
  obtain hs | ⟨other, feed, hr⟩ := he.similar_or_spawn
  · obtain ⟨w', hw', hst⟩ := hs.getElem? hw
    exact ⟨w', hw', (congrArg Prod.fst hst).trans hid⟩
  · rw [hr]
    exact ⟨w, Registry.Owns.append ⟨hw, hid⟩ rfl⟩

theorem owner?_step (h : c.registry.owner? k = some id) (move : Move σ) :
    (c.step stores codec move).registry.owner? k = some id := by
  cases hact : c.acting move with
  | some call =>
    rw [step_of_acting hact]
    exact owner?_goOn h
  | none =>
    obtain ⟨w, hw, hid⟩ := Registry.owner?_eq_some_iff.1 h
    obtain ⟨w', hw', ha⟩ := (elsewhere_of_acting stores codec hact).registry.getElem? hw
    exact Registry.owner?_eq_some_iff.2 ⟨w', hw', ha.subscriber.trans hid⟩

theorem owner?_run (h : c.registry.owner? k = some id) (stores : Stores σ) (codec : Codec) (moves : List (Move σ)) :
    (run stores codec moves c).registry.owner? k = some id := by
  induction moves generalizing c with
  | nil => exact h
  | cons move moves ih => exact ih (owner?_step h move)

/-- What the worker itself does. -/
theorem outcome?_update {r : Registry} {f : Worker → Worker} {e : Worker → Option Ending}
    (ho : ∀ other, r.owner? k = some other → other = id)
    (h : ∀ w, r.workers[k]? = some w → (f w).outcome? = w.outcome?.or ((e w).map (Ending.outcome w.subscriber))) :
    (r.update k f).outcome? k = (r.outcome? k).or ((r.workers[k]? >>= e).map (Ending.outcome id)) := by
  rw [Registry.outcome?, Registry.outcome?, Registry.getElem?_update]
  cases hk : r.workers[k]? with
  | none => rfl
  | some w =>
    obtain rfl := ho w.subscriber (by simp [Registry.owner?, hk])
    simpa using h w hk

theorem outcome?_update_of_ne {r : Registry} {f : Worker → Worker} {j : Nat} (h : j ≠ k) :
    (r.update j f).outcome? k = r.outcome? k := by
  rw [Registry.outcome?, Registry.outcome?, Registry.getElem?_update]
  cases r.workers[k]? with
  | none => rfl
  | some w => simp [h]

theorem outcome?_goOn (call : Call) (c : Usage σ) (k : Nat) :
    (c.goOn stores call).registry.outcome? k = c.registry.outcome? k :=
  (call.effect_advance stores c.store c.registry).outcome?_eq k

/-- `id` is whose worker it is, if it is there. -/
theorem outcome?_step (ho : ∀ other, c.registry.owner? k = some other → other = id) (move : Move σ) :
    (c.step stores codec move).registry.outcome? k =
      (c.registry.outcome? k).or ((c.ending? stores codec k move).map (Ending.outcome id)) := by
  cases move with
  | request q =>
    rw [step, ending?, Option.map_none, Option.or_none]
    split
    · exact outcome?_goOn _ c k
    · rfl
  | proceed =>
    rw [step, ending?, Option.map_none, Option.or_none]
    split
    · rfl
    · exact outcome?_goOn _ c k
  | poll j =>
    rw [step, ending?]
    by_cases hj : j = k
    · subst hj
      rw [if_pos rfl]
      exact outcome?_update ho fun w _ => w.outcome?_poll codec (stores.log c.store)
    · rw [if_neg hj, Option.map_none, Option.or_none]
      exact outcome?_update_of_ne hj
  | settle j verdict =>
    rw [step, ending?]
    by_cases hj : j = k
    · subst hj
      rw [if_pos rfl]
      cases hk : c.registry.workers[j]? with
      | none => simp
      | some w =>
        show (c.registry.update j fun _ => (w.settle stores.save verdict c.store).1).outcome? j = _
        rw [← hk]
        refine outcome?_update ho fun v hv => ?_
        cases hk.symm.trans hv
        exact w.outcome?_settle stores.save verdict c.store
    · rw [if_neg hj, Option.map_none, Option.or_none]
      cases c.registry.workers[j]? with
      | none => rfl
      | some w => exact outcome?_update_of_ne hj
  | elapse s => simp [step, ending?]

/-! ## Runs -/

/-- A worker's outcome is the one of its first ending, by induction on the run: what has an outcome keeps it. -/
theorem outcome?_run (stores : Stores σ) (codec : Codec) (moves : List (Move σ)) (c : Usage σ)
    (ho : (run stores codec moves c).registry.owner? k = some id) :
    (run stores codec moves c).registry.outcome? k =
      (c.registry.outcome? k).or ((endings stores codec k moves c).head?.map (Ending.outcome id)) := by
  induction moves generalizing c with
  | nil => simp [endings]
  | cons move moves ih =>
    have howner (other : String) (h : c.registry.owner? k = some other) : other = id :=
      Option.some.inj ((owner?_run h stores codec (move :: moves)).symm.trans ho)
    rw [run_cons, ih (c.step stores codec move) ho, outcome?_step howner, endings, List.head?_append,
      Option.head?_toList, Option.map_or, Option.or_assoc]

/-- From the start, when there is no worker. -/
theorem outcome?_run_initial (stores : Stores σ) (codec : Codec) (moves : List (Move σ)) (s : σ)
    (ho : (run stores codec moves (initial s)).registry.owner? k = some id) :
    (run stores codec moves (initial s)).registry.outcome? k =
      (endings stores codec k moves (initial s)).head?.map (Ending.outcome id) :=
  outcome?_run stores codec moves (initial s) ho

end Usage

end Chronicle
