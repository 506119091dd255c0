import Chronicle.Proofs.Subscription.Parts
import Chronicle.Proofs.Subscription.Calls

/-!
# A registry in use by one caller

`Usage.step` lets one caller make calls at a registry, each after the one before has been answered, while the workers
run and others use the stores. A call goes from wait to wait (`Call.advance`); a subscription that nothing comes
between is `Registry.subscribe` (`Usage.run_subscribe`). What the stores answer is open: they may fail, and the feeds
that they open may hold anything (`Stores`). In memory, a call goes on as it does among those of several callers when
it can have the lock (`Call.advance_inMemory`).

A step is one of a call (`Usage.step_of_acting`) or leaves the call alone (`Usage.elsewhere_of_acting`). In every state
the registered workers are there and have not been told to stop, and the one that a call waits for has been
(`Usage.Sound.run`).
-/

namespace Chronicle

/-- Stores with states of a type, as the registry uses them: each may answer with an error. -/
structure Stores (σ : Type) where
  load : String → σ → Except StoreError (Option Position) × σ
  save : String → Position → σ → Except StoreError SaveOutcome × σ
  openFeed : StartPosition → σ → Except StoreError Feed
  log : σ → EventLog

/-- A log and positions in memory, if they answer. -/
def Stores.inMemory (answers : Bool) : Stores (EventLog × Positions) where
  load id s := ((System.load answers id s.2).1, s)
  save id p s := ((System.save answers id p s.2).1, (s.1, (System.save answers id p s.2).2))
  openFeed p s := System.open answers p s.1
  log s := s.1

/-- A step of the worker with a number, if there is one, moves the registry on. -/
theorem Registry.advances_modify {r : Registry} {k : Nat} {f : Worker → Worker}
    (h : ∀ w, r.workers[k]? = some w → w.Advances (f w)) : r.Advances (r.update k f) where
  registered := rfl
  workers j := by
    rw [getElem?_update]
    cases hj : r.workers[j]? with
    | none => exact .none
    | some w =>
      by_cases hk : k = j
      · subst hk
        simpa using h w hj
      · simpa [hk] using Worker.Advances.refl w

theorem Worker.outcome?_of_state {w w' : Worker} (h : w'.state = w.state) : w'.outcome? = w.outcome? := by
  rw [outcome?, outcome?, stage_of_state h]

namespace Registry

theorem Similar.outcome?_eq {r r' : Registry} (h : r.Similar r') (k : Nat) : r'.outcome? k = r.outcome? k := by
  rw [outcome?, outcome?]
  cases hk : r.workers[k]? with
  | none =>
    have hs := h k
    rw [hk, Option.map_none, Option.map_eq_none_iff] at hs
    rw [hs]
  | some w =>
    obtain ⟨w', hw', hs⟩ := h.getElem? hk
    rw [hw']
    exact Worker.outcome?_of_state hs

theorem outcome?_spawn (id : String) (feed : Feed) (r : Registry) (k : Nat) :
    (r.spawn id feed).outcome? k = r.outcome? k := by
  rw [outcome?, outcome?, spawn]
  rcases Nat.lt_trichotomy k r.workers.length with hlt | rfl | hlt
  · rw [List.getElem?_append_left hlt]
  · rw [List.getElem?_concat_length, List.getElem?_eq_none (Nat.le_refl _)]
    rfl
  · have hle : (r.workers ++ [Worker.start id feed]).length ≤ k := by
      rw [List.length_append]
      exact hlt
    rw [List.getElem?_eq_none hle, List.getElem?_eq_none (Nat.le_of_lt hlt)]

end Registry

/-- What a call has got for an answer. -/
inductive Answer where
  | subscribe (id : String) (outcome : Outcome)
  | unsubscribe (id : String) (outcome : Outcome)
  | shutdown (outcomes : List (String × Outcome))

section

variable {σ : Type} (stores : Stores σ)

/-- A call to subscribe that has the lock, or takes it, goes on to its next wait. -/
def Subscribing.advance (id : String) (start : StartAt) (s : σ) (r : Registry) :
    Subscribing → Subscribing × σ × Registry
  | .entering =>
    if r.isRunning id then (.returned (.error (.alreadySubscribed id)), s, r) else (.clearing, s, r.forget id)
  | .clearing => (.loading, s, r)
  | .loading =>
    match stores.load id s with
    | (.error e, s) => (.returned (.error (.store e)), s, r)
    | (.ok saved, s) => (.opening saved, s, r)
  | .opening saved =>
    match stores.openFeed (start.position saved) s with
    | .error e => (.returned (.error (.store e)), s, r)
    | .ok feed => (.returned (.ok ()), s, r.spawn id feed)
  | .returned outcome => (.returned outcome, s, r)

namespace Call

/-- A call goes on to its next wait. -/
def advance (s : σ) (r : Registry) : Call → Call × σ × Registry
  | .subscribe id start stage =>
    let (stage, s, r) := stage.advance stores id start s r
    (.subscribe id start stage, s, r)
  | .unsubscribe id stage =>
    let (stage, r) := stage.proceed true id r
    (.unsubscribe id stage, s, r)
  | .shutdown stage =>
    let (stage, r) := stage.proceed true r
    (.shutdown stage, s, r)

/-- What a call is for. -/
def request : Call → Request
  | .subscribe id start _ => .subscribe id start
  | .unsubscribe id _ => .unsubscribe id
  | .shutdown _ => .shutdown

/-- The answer of a call that has come to its end. -/
def answer? : Call → Option Answer
  | .subscribe id _ (.returned outcome) => some (.subscribe id outcome)
  | .unsubscribe id (.returned outcome) => some (.unsubscribe id outcome)
  | .shutdown (.returned outcomes) => some (.shutdown outcomes)
  | _ => none

end Call

end

/-- In memory, a call goes on as it does when it is one of several and can have the lock. So calls one after the other
are the same here, with stores in memory, as among those that come at any time. -/
theorem Call.advance_inMemory (answers : Bool) (s : System) (call : Call) :
    call.advance (.inMemory answers) (s.log, s.positions) s.registry =
      ((call.proceed true answers s).1, (s.log, s.positions), (call.proceed true answers s).2) := by
  cases call with
  | subscribe id start stage =>
    cases stage with
    | entering =>
      cases hrun : s.registry.isRunning id with
      | _ => simp [advance, proceed, Subscribing.advance, Subscribing.proceed, Registry.forget, hrun]
    | loading => cases answers <;> rfl
    | opening saved =>
      cases hf : System.open answers (start.position saved) s.log with
      | _ => simp [advance, proceed, Subscribing.advance, Subscribing.proceed, Stores.inMemory, hf]
    | _ => rfl
  | _ => rfl

/-- Stores, a registry, the answers that its caller has got, in order, and the call that is still to be answered. -/
structure Usage (σ : Type) where
  store : σ
  registry : Registry
  answers : List Answer
  call : Option Call

namespace Usage

/-- What can happen next. -/
inductive Move (σ : Type) where
  /-- A call is made, and goes on to its first wait. -/
  | request (request : Request)
  /-- The call goes on to its next wait. -/
  | proceed
  /-- A worker goes to its next event. -/
  | poll (worker : Nat)
  /-- A worker's handler answers. -/
  | settle (worker : Nat) (verdict : Verdict)
  /-- Others have used the stores. -/
  | elapse (store : σ)

/-- Whether a move is made by the caller. -/
def Move.isCall {σ : Type} : Move σ → Bool
  | .request _ | .proceed => true
  | _ => false

/-- No call is made. -/
def Uncalled {σ : Type} (moves : List (Move σ)) : Prop := ∀ q, .request q ∉ moves

variable {σ : Type} (stores : Stores σ) (codec : Codec)

/-- A call has gone on. -/
def goOn (call : Call) (c : Usage σ) : Usage σ :=
  let (call, store, registry) := call.advance stores c.store c.registry
  { store, registry
    answers := c.answers ++ call.answer?.toList
    call := if call.answer?.isSome then none else some call }

/-- One step. While a call waits for its answer no other is made. -/
def step (c : Usage σ) : Move σ → Usage σ
  | .request q =>
    match c.call with
    | none => c.goOn stores q.call
    | some _ => c
  | .proceed =>
    match c.call with
    | none => c
    | some call => c.goOn stores call
  | .poll k => { c with registry := c.registry.update k (Worker.poll codec (stores.log c.store)) }
  | .settle k verdict =>
    match c.registry.workers[k]? with
    | none => c
    | some w =>
      let (w, store) := w.settle stores.save verdict c.store
      { c with store, registry := c.registry.update k fun _ => w }
  | .elapse store => { c with store }

/-- What some steps lead to. -/
def run (moves : List (Move σ)) (c : Usage σ) : Usage σ := moves.foldl (step stores codec) c

/-- Stores, and a registry at which no call has been made. -/
def initial (s : σ) : Usage σ := ⟨s, .empty, [], none⟩

/-- The call that goes on in a step. -/
def acting (c : Usage σ) : Move σ → Option Call
  | .request q => if c.call.isNone then some q.call else none
  | .proceed => c.call
  | _ => none

variable {stores codec} {c d : Usage σ} {move : Move σ} {moves m : List (Move σ)} {call : Call}

@[simp] theorem run_nil : run stores codec [] c = c := rfl

@[simp] theorem run_cons :
    run stores codec (move :: moves) c = run stores codec moves (c.step stores codec move) := rfl

theorem run_append : run stores codec (moves ++ m) c = run stores codec m (run stores codec moves c) :=
  List.foldl_append

theorem uncalled_nil : Uncalled ([] : List (Move σ)) := fun _ => List.not_mem_nil

theorem uncalled_cons : Uncalled (move :: moves) ↔ (∀ q, move ≠ .request q) ∧ Uncalled moves := by
  simp only [Uncalled, List.mem_cons, not_or, ne_comm, forall_and]

theorem uncalled_append : Uncalled (moves ++ m) ↔ Uncalled moves ∧ Uncalled m := by
  simp only [Uncalled, List.mem_append, not_or, forall_and]

/-! ## Subscriptions that nothing comes between -/

/-- A call to subscribe, made and brought to its end, is `Registry.subscribe`. -/
theorem run_subscribe (stores : Stores σ) (codec : Codec) (id : String) (start : StartAt) (hc : c.call = none) :
    run stores codec (.request (.subscribe id start) :: List.replicate 3 .proceed) c =
      let (outcome, store, registry) := c.registry.subscribe stores.load
        (fun p => stores.openFeed p (stores.load id c.store).2) id start c.store
      ⟨store, registry, c.answers ++ [.subscribe id outcome], none⟩ := by
  simp only [List.replicate, run_cons, run_nil, step, hc, Request.call, Registry.subscribe]
  cases hrun : c.registry.isRunning id with
  | true => simp [goOn, Call.advance, Subscribing.advance, Call.answer?, hrun]
  | false =>
    cases hl : stores.load id c.store with
    | mk loaded s =>
      cases loaded with
      | error e => simp [goOn, Call.advance, Subscribing.advance, Call.answer?, Registry.forget, hrun, hl]
      | ok saved =>
        cases hf : stores.openFeed (start.position saved) s with
        | _ => simp [goOn, Call.advance, Subscribing.advance, Call.answer?, Registry.forget, hrun, hl, hf]

/-! ## What a step can do -/

theorem step_of_acting (h : c.acting move = some call) : c.step stores codec move = c.goOn stores call := by
  cases move with
  | request q =>
    cases hc : c.call with
    | none =>
      simp only [acting, hc, Option.isNone_none, if_true, Option.some.injEq] at h
      simp only [step, hc, h]
    | some _ => simp [acting, hc] at h
  | proceed =>
    rw [acting] at h
    simp only [step, h]
  | _ => cases h

theorem step_proceed (h : c.call = some call) : c.step stores codec .proceed = c.goOn stores call := by
  simp only [step, h]

/-- A step that is not one of a call: it may move workers on. -/
structure Elsewhere (c d : Usage σ) : Prop where
  call : d.call = c.call
  answers : d.answers = c.answers
  registry : c.registry.Advances d.registry

theorem Elsewhere.refl (c : Usage σ) : c.Elsewhere c := ⟨rfl, rfl, .refl _⟩

theorem elsewhere_of_acting (stores : Stores σ) (codec : Codec) (h : c.acting move = none) :
    c.Elsewhere (c.step stores codec move) := by
  cases move with
  | request q =>
    cases hc : c.call with
    | none => simp [acting, hc] at h
    | some call =>
      simp only [step, hc]
      exact .refl c
  | proceed =>
    rw [acting] at h
    simp only [step, h]
    exact .refl c
  | poll k => exact ⟨rfl, rfl, Registry.advances_modify fun w _ => w.advances_poll codec (stores.log c.store)⟩
  | settle k verdict =>
    simp only [step]
    cases hk : c.registry.workers[k]? with
    | none => exact .refl c
    | some w => exact ⟨rfl, rfl, Registry.advances_update hk (w.advances_settle stores.save verdict c.store)⟩
  | elapse s => exact ⟨rfl, rfl, .refl _⟩

end Usage

/-! ## What a call does to the registry -/

namespace Call

variable {σ : Type} {free : Bool} {r r' : Registry} {call call' : Call} {k : Nat} {id : String}

theorem joins_request (q : Request) : q.call.joins = none := by
  cases q <;> rfl

theorem effect_advance (stores : Stores σ) (s : σ) (r : Registry) (call : Call) :
    Effect true r call (call.advance stores s r).1 (call.advance stores s r).2.2 := by
  cases call with
  | subscribe id start stage =>
    cases stage with
    | entering =>
      cases hrun : r.isRunning id with
      | true =>
        simp only [advance, Subscribing.advance, hrun, if_true]
        exact .idle nofun rfl rfl
      | false =>
        simp only [advance, Subscribing.advance, hrun, Bool.false_eq_true, if_false]
        exact .enter id rfl hrun rfl rfl rfl
    | clearing => exact .idle (fun _ h => h) rfl rfl
    | loading =>
      cases hl : stores.load id s with
      | mk loaded s =>
        simp only [advance, Subscribing.advance, hl]
        cases loaded with
        | error e => exact .idle nofun rfl rfl
        | ok saved => exact .idle (fun _ h => h) rfl rfl
    | opening saved =>
      simp only [advance, Subscribing.advance]
      cases stores.openFeed (start.position saved) s with
      | error e => exact .idle nofun rfl rfl
      | ok feed => exact .spawn id feed rfl rfl rfl rfl
    | returned outcome => exact .idle nofun rfl rfl
  | unsubscribe id stage => exact effect_proceed true true ⟨.empty, .empty, r, []⟩ (.unsubscribe id stage)
  | shutdown stage => exact effect_proceed true true ⟨.empty, .empty, r, []⟩ (.shutdown stage)

/-- A call moves no worker, but it may start one. -/
theorem Effect.similar_or_spawn (h : Effect free r call call' r') :
    r.Similar r' ∨ ∃ id feed, r' = r.spawn id feed := by
  cases h with
  | quiet => exact .inl (.refl r)
  | enter => exact .inl (Registry.similar_of_workers rfl)
  | spawn id feed => exact .inr ⟨id, feed, rfl⟩
  | release id k =>
    have hforget : r.Similar (r.forget id) := Registry.similar_of_workers rfl
    exact .inl (hforget.trans (Registry.similar_update_stop _ k))

/-- A call does not change how a worker has ended. -/
theorem Effect.outcome?_eq (h : Effect free r call call' r') (k : Nat) : r'.outcome? k = r.outcome? k := by
  obtain hs | ⟨id, feed, rfl⟩ := h.similar_or_spawn
  · exact hs.outcome?_eq k
  · exact Registry.outcome?_spawn id feed r k

end Call

namespace Registry

variable {r r' : Registry} {call call' : Call} {k : Nat} {id : String} {free : Bool}

/-- The registered workers are there, and have not been told to stop. -/
def Live (r : Registry) : Prop := ∀ id k, r.registered.get? id = some k → ∃ w, r.Owns id k w ∧ w.stopped = false

/-- The worker that a call waits for is there, and has been told to stop. -/
def Stops (r : Registry) (call : Call) : Prop :=
  ∀ k, call.joins = some k → ∃ w, r.workers[k]? = some w ∧ w.stopped = true

theorem live_empty : empty.Live := fun _ _ hk => by cases hk

theorem Live.advances (h : r.Live) (ha : r.Advances r') : r'.Live := by
  intro id k hk
  rw [ha.registered] at hk
  obtain ⟨w, ⟨hw, hid⟩, hs⟩ := h id k hk
  obtain ⟨w', hw', hadv⟩ := ha.getElem? hw
  exact ⟨w', ⟨hw', hadv.subscriber.trans hid⟩, hadv.stopped.trans hs⟩

theorem Stops.advances (h : r.Stops call) (ha : r.Advances r') : r'.Stops call := by
  intro k hk
  obtain ⟨w, hw, hs⟩ := h k hk
  obtain ⟨w', hw', hadv⟩ := ha.getElem? hw
  exact ⟨w', hw', hadv.stopped.trans hs⟩

theorem Live.forget (h : r.Live) (id : String) : (r.forget id).Live := by
  intro name k hk
  rw [Registry.forget, NameMap.get?_erase] at hk
  split at hk
  · cases hk
  · exact h name k hk

theorem Live.spawn (h : r.Live) (id : String) (feed : Feed) : (r.spawn id feed).Live := by
  intro name k hk
  rw [Registry.spawn, NameMap.get?_insert] at hk
  split at hk
  · rename_i hname
    cases hk
    subst hname
    exact ⟨.start id feed, ⟨List.getElem?_concat_length, rfl⟩, rfl⟩
  · obtain ⟨w, ho, hs⟩ := h name k hk
    exact ⟨w, ho.append rfl, hs⟩

/-- Numbers of different ids differ, so that telling one worker to stop tells no other registered one. -/
theorem Live.release (h : r.Live) (hk : r.registered.get? id = some k) : ((r.forget id).update k .stop).Live := by
  intro name j hj
  have hname : id ≠ name := by
    rintro rfl
    simp [update, Registry.forget, NameMap.get?_erase] at hj
  have hj' : r.registered.get? name = some j := by
    simpa [update, Registry.forget, NameMap.get?_erase, hname] using hj
  obtain ⟨w, ⟨hw, hid⟩, hs⟩ := h name j hj'
  obtain ⟨v, ⟨hv, hid'⟩, -⟩ := h id k hk
  have hkj : k ≠ j := by
    rintro rfl
    cases hw.symm.trans hv
    exact hname (hid'.symm.trans hid)
  refine ⟨w, ⟨?_, hid⟩, hs⟩
  rw [getElem?_update]
  show (r.workers[j]?).map _ = some w
  rw [hw, Option.map_some, if_neg hkj]

theorem Live.effect (h : r.Live) (he : call.Effect free r call' r') : r'.Live := by
  cases he with
  | quiet => exact h
  | enter id => exact h.forget id
  | spawn id feed => exact h.spawn id feed
  | release id j _ hk => exact h.release hk

theorem Stops.effect (h : r.Stops call) (hl : r.Live) (he : call.Effect free r call' r') : r'.Stops call' := by
  intro j hj
  cases he with
  | quiet _ hjoins => exact h j (hjoins j hj)
  | enter _ _ _ _ _ hjoins' => simp [hjoins'] at hj
  | spawn _ _ _ _ _ hjoins' => simp [hjoins'] at hj
  | release id _ _ hk _ _ hjoins' =>
    cases hjoins'.symm.trans hj
    obtain ⟨w, ho, -⟩ := hl id _ hk
    refine ⟨w.stop, ?_, rfl⟩
    rw [getElem?_update]
    show (r.workers[j]?).map _ = some w.stop
    rw [ho.1, Option.map_some, if_pos rfl]

end Registry

/-! ## Every state is sound -/

namespace Usage

variable {σ : Type} {stores : Stores σ} {codec : Codec} {c : Usage σ} {move : Move σ} {call call' : Call} {k : Nat}

theorem acting_cases (h : c.acting move = some call) :
    c.call = some call ∨ c.call = none ∧ ∃ q : Request, call = q.call := by
  cases move with
  | request q =>
    cases hc : c.call with
    | none =>
      simp only [acting, hc, Option.isNone_none, if_true, Option.some.injEq] at h
      exact .inr ⟨rfl, q, h.symm⟩
    | some _ => simp [acting, hc] at h
  | proceed => exact .inl h
  | _ => cases h

/-- The call that is still to be answered after a step of a call is the one that has gone on. -/
theorem call_goOn (h : (c.goOn stores call).call = some call') :
    (call.advance stores c.store c.registry).1 = call' ∧ call'.answer? = none := by
  simp only [goOn] at h
  split at h
  · cases h
  · rename_i ha
    cases h
    exact ⟨rfl, by simpa using ha⟩

/-- The registered workers run on, and the worker that the call waits for has been told to stop. -/
structure Sound (c : Usage σ) : Prop where
  live : c.registry.Live
  stops : ∀ call, c.call = some call → c.registry.Stops call

theorem sound_initial (s : σ) : (initial s).Sound where
  live := Registry.live_empty
  stops _ hcall := by cases hcall

theorem Sound.goOn (h : c.Sound) (hs : c.registry.Stops call) (stores : Stores σ) : (c.goOn stores call).Sound := by
  have heff := call.effect_advance stores c.store c.registry
  refine ⟨h.live.effect heff, fun call' hcall' => ?_⟩
  obtain ⟨rfl, -⟩ := call_goOn hcall'
  exact hs.effect h.live heff

theorem Sound.step (h : c.Sound) (stores : Stores σ) (codec : Codec) (move : Move σ) :
    (c.step stores codec move).Sound := by
  cases hact : c.acting move with
  | none =>
    have he := elsewhere_of_acting stores codec hact
    refine ⟨h.live.advances he.registry, fun call hcall => ?_⟩
    exact (h.stops call (he.call.symm.trans hcall)).advances he.registry
  | some call =>
    rw [step_of_acting hact]
    refine h.goOn ?_ stores
    obtain hcall | ⟨-, q, rfl⟩ := acting_cases hact
    · exact h.stops call hcall
    · intro k hk
      simp [Call.joins_request] at hk

theorem Sound.run (h : c.Sound) (stores : Stores σ) (codec : Codec) (moves : List (Move σ)) :
    (run stores codec moves c).Sound := by
  induction moves generalizing c with
  | nil => exact h
  | cons move moves ih => exact ih (h.step stores codec move)

end Usage

end Chronicle
