import Chronicle.Proofs.Subscription.Steps

/-!
# Calls at a registry, from wait to wait

`System.step` takes a subscription, and the taking out of a subscriber, as one atomic step. Here they are calls that go
on from one place at which they wait to the next, while other calls and the workers run in between (`Contention`). A
call has the registry to itself from the moment it gets the lock until it lets it go: to subscribe, until the worker has
been started; to unsubscribe, only for taking the id out and telling the worker to stop, but not while it waits for the
worker to finish. Shutting down is unsubscribing one id after the other.

What a call does to the registry between two waits is one of four things (`Call.Effect`, `Call.effect_proceed`); what
happens elsewhere moves workers on, and touches neither stop signals nor the registered ids (`Registry.Advances`,
`System.advances_step`). A call that nothing comes between is the atomic step (`Contention.run_subscribe`,
`Contention.run_unsubscribe`).
-/

namespace Chronicle

/-- Where a call to subscribe is. It has the lock at the three places in the middle. -/
inductive Subscribing where
  /-- It waits for the lock. -/
  | entering
  /-- The finished worker of the id, if there was one, is forgotten; the call waits for what it has returned. -/
  | clearing
  /-- It waits for the saved position. -/
  | loading
  /-- It waits for the feed. -/
  | opening (saved : Option Position)
  | returned (outcome : Outcome)

/-- Where a call to unsubscribe is. It never waits with the lock. -/
inductive Unsubscribing where
  /-- It waits for the lock. -/
  | entering
  /-- The id is taken out, and its worker told to stop; the call waits for the worker. -/
  | joining (worker : Nat)
  | returned (outcome : Outcome)

/-- Where a call to shut the registry down is. -/
inductive ShuttingDown where
  /-- It waits for the lock, to list the ids. -/
  | entering
  /-- It unsubscribes an id; some have been closed, the rest is still to come. -/
  | closing (closed : List (String × Outcome)) (id : String) (stage : Unsubscribing) (rest : List String)
  | returned (outcomes : List (String × Outcome))

/-- A call at a registry, with the place where it is. -/
inductive Call where
  | subscribe (id : String) (start : StartAt) (stage : Subscribing)
  | unsubscribe (id : String) (stage : Unsubscribing)
  | shutdown (stage : ShuttingDown)

/-- What a call is made for. -/
inductive Request where
  | subscribe (id : String) (start : StartAt)
  | unsubscribe (id : String)
  | shutdown

/-- A call that has just been made. -/
def Request.call : Request → Call
  | .subscribe id start => .subscribe id start .entering
  | .unsubscribe id => .unsubscribe id .entering
  | .shutdown => .shutdown .entering

/-- Opens a feed, if the store answers. -/
def System.open (answers : Bool) (p : StartPosition) (log : EventLog) : Except StoreError Feed :=
  if answers then log.openFeed p else .error outage

/-- A call to subscribe goes on to its next wait. `free` says whether the lock can be had, `answers` whether the store
answers. -/
def Subscribing.proceed (free answers : Bool) (id : String) (start : StartAt) (s : System) :
    Subscribing → Subscribing × Registry
  | .entering =>
    if free then
      if s.registry.isRunning id then (.returned (.error (.alreadySubscribed id)), s.registry)
      else (.clearing, { s.registry with registered := s.registry.registered.erase id })
    else (.entering, s.registry)
  | .clearing => (.loading, s.registry)
  | .loading =>
    match (System.load answers id s.positions).1 with
    | .error e => (.returned (.error (.store e)), s.registry)
    | .ok saved => (.opening saved, s.registry)
  | .opening saved =>
    match System.open answers (start.position saved) s.log with
    | .error e => (.returned (.error (.store e)), s.registry)
    | .ok feed => (.returned (.ok ()), s.registry.spawn id feed)
  | .returned outcome => (.returned outcome, s.registry)

/-- A call to unsubscribe goes on to its next wait. -/
def Unsubscribing.proceed (free : Bool) (id : String) (r : Registry) : Unsubscribing → Unsubscribing × Registry
  | .entering =>
    if free then
      match r.release id with
      | (.ok k, r) => (.joining k, r)
      | (.error e, r) => (.returned (.error e), r)
    else (.entering, r)
  | .joining k =>
    match r.outcome? k with
    | some outcome => (.returned outcome, r)
    | none => (.joining k, r)
  | .returned outcome => (.returned outcome, r)

/-- The worker that a call to unsubscribe waits for. -/
def Unsubscribing.joins : Unsubscribing → Option Nat
  | .joining k => some k
  | _ => none

/-- The next id to unsubscribe, if there is one. -/
def ShuttingDown.next (closed : List (String × Outcome)) : List String → ShuttingDown
  | [] => .returned closed
  | id :: rest => .closing closed id .entering rest

/-- A call to shut down goes on to its next wait. -/
def ShuttingDown.proceed (free : Bool) (r : Registry) : ShuttingDown → ShuttingDown × Registry
  | .entering => if free then (next [] r.ids, r) else (.entering, r)
  | .closing closed id stage rest =>
    match stage.proceed free id r with
    | (.returned outcome, r) => (next (closed ++ [(id, outcome)]) rest, r)
    | (stage, r) => (.closing closed id stage rest, r)
  | .returned outcomes => (.returned outcomes, r)

namespace Call

/-- A call goes on to its next wait. -/
def proceed (free answers : Bool) (s : System) : Call → Call × Registry
  | .subscribe id start stage =>
    let (stage, r) := stage.proceed free answers id start s
    (.subscribe id start stage, r)
  | .unsubscribe id stage =>
    let (stage, r) := stage.proceed free id s.registry
    (.unsubscribe id stage, r)
  | .shutdown stage =>
    let (stage, r) := stage.proceed free s.registry
    (.shutdown stage, r)

/-- The id for which a call has the lock. -/
def held : Call → Option String
  | .subscribe id _ .clearing | .subscribe id _ .loading | .subscribe id _ (.opening _) => some id
  | _ => none

/-- The worker that a call waits for. -/
def joins : Call → Option Nat
  | .unsubscribe _ stage | .shutdown (.closing _ _ stage _) => stage.joins
  | _ => none

theorem joins_next (closed : List (String × Outcome)) (ids : List String) :
    (Call.shutdown (.next closed ids)).joins = none := by
  cases ids <;> rfl

end Call

/-- A step of a system that is not a call at its registry. -/
def Action.Outside : Action → Prop
  | .subscribe .. | .unsubscribe .. | .abandon => False
  | _ => True

/-- A system, and the calls that were made at its registry. -/
structure Contention where
  system : System
  calls : List Call

/-- What can happen next. -/
inductive Move where
  /-- A call is made. -/
  | request (request : Request)
  /-- A call goes on to its next wait. -/
  | proceed (call : Nat) (answers : Bool)
  /-- A worker goes on, or a client uses the store. -/
  | elapse (a : Action) (h : a.Outside)

namespace Contention

/-- No call has the lock. -/
def isFree (c : Contention) : Bool := c.calls.all (·.held.isNone)

/-- A call waits for this worker. -/
def Awaits (c : Contention) (k : Nat) : Prop := ∃ call ∈ c.calls, call.joins = some k

/-- One step. -/
def step (store codec : Codec) (c : Contention) : Move → Contention
  | .request request => { c with calls := c.calls ++ [request.call] }
  | .proceed n answers =>
    match c.calls[n]? with
    | none => c
    | some call =>
      let (call', registry) := call.proceed c.isFree answers c.system
      { system := { c.system with registry }, calls := c.calls.set n call' }
  | .elapse a _ => { c with system := c.system.step store codec a }

/-- What some steps lead to. -/
def run (store codec : Codec) (moves : List Move) (c : Contention) : Contention := moves.foldl (step store codec) c

/-- A log and positions, without workers and without calls. -/
def initial (log : EventLog) (positions : Positions) : Contention := ⟨.initial log positions, []⟩

end Contention

/-! ## Calls that nothing comes between -/

namespace Contention

variable (store codec : Codec) (s : System) (id : String)

/-- A call to subscribe, made and brought to its end, is the atomic step. -/
theorem run_subscribe (start : StartAt) (loads : Bool) :
    run store codec (.request (.subscribe id start) :: List.replicate 4 (.proceed 0 loads)) ⟨s, []⟩ =
      ⟨s.step store codec (.subscribe id start loads),
        [.subscribe id start (.returned (s.subscription id start loads))]⟩ := by
  simp only [run, List.replicate, List.foldl_cons, List.foldl_nil, step, Request.call, List.nil_append,
    System.step, System.subscription]
  cases hrun : s.registry.isRunning id with
  | true => simp [Call.proceed, Subscribing.proceed, Registry.subscribe, isFree, Call.held, hrun]
  | false =>
    cases loads with
    | false =>
      simp [Call.proceed, Subscribing.proceed, Registry.subscribe, isFree, Call.held, System.load, hrun]
    | true =>
      cases hf : s.log.openFeed (start.position (s.positions.load id)) with
      | _ =>
        simp [Call.proceed, Subscribing.proceed, Registry.subscribe, isFree, Call.held, System.load, System.open,
          hrun, hf]

/-- A call to unsubscribe, made and brought to where it waits for the worker, is the atomic step. -/
theorem run_unsubscribe (answers : Bool) :
    run store codec [.request (.unsubscribe id), .proceed 0 answers] ⟨s, []⟩ =
      ⟨s.step store codec (.unsubscribe id), [.unsubscribe id
        (match (s.registry.release id).1 with
        | .ok k => .joining k
        | .error e => .returned (.error e))]⟩ := by
  simp only [run, List.foldl_cons, List.foldl_nil, step, Request.call, List.nil_append, System.step]
  cases hk : s.registry.registered.get? id with
  | _ => simp [Call.proceed, Unsubscribing.proceed, Registry.release, isFree, Call.held, hk]

end Contention

/-! ## What a call does to the registry -/

namespace Call

/-- What a call does to the registry from one wait to the next. -/
inductive Effect (free : Bool) (r : Registry) (call call' : Call) : Registry → Prop where
  /-- It leaves the registry alone. It goes on to wait for a worker that has not finished, but for no other. -/
  | quiet (hheld : ∀ id, call'.held = some id → call.held = some id)
      (hjoins : ∀ k, call'.joins = some k → call.joins = some k)
      (hjoined : ∀ k, call.joins = some k → call'.joins = some k ∨ ∃ outcome, r.outcome? k = some outcome) :
      Effect free r call call' r
  /-- It gets the lock for an id that is not running, and forgets the id. -/
  | enter (id : String) (hfree : free = true) (hrun : r.isRunning id = false) (hheld : call'.held = some id)
      (hjoins : call.joins = none) (hjoins' : call'.joins = none) :
      Effect free r call call' { r with registered := r.registered.erase id }
  /-- It starts a worker for the id for which it has the lock, and lets the lock go. -/
  | spawn (id : String) (feed : Feed) (hheld : call.held = some id) (hheld' : call'.held = none)
      (hjoins : call.joins = none) (hjoins' : call'.joins = none) :
      Effect free r call call' (r.spawn id feed)
  /-- It takes an id out, and tells its worker to stop. -/
  | release (id : String) (k : Nat) (hfree : free = true) (hk : r.registered.get? id = some k)
      (hheld' : call'.held = none) (hjoins : call.joins = none) (hjoins' : call'.joins = some k) :
      Effect free r call call' ({ r with registered := r.registered.erase id }.update k .stop)

variable {free answers : Bool} {s : System} {r : Registry} {call call' : Call} {id : String} {start : StartAt}

/-- A call that waits for no worker, and has no new lock, leaves the registry alone. -/
theorem Effect.idle (hheld : ∀ id, call'.held = some id → call.held = some id) (hjoins : call.joins = none)
    (hjoins' : call'.joins = none) : Effect free r call call' r :=
  .quiet hheld (fun k hk => by simp [hjoins'] at hk) fun k hk => by simp [hjoins] at hk

theorem effect_subscribe (stage : Subscribing) :
    Effect free s.registry (.subscribe id start stage)
      (.subscribe id start (stage.proceed free answers id start s).1) (stage.proceed free answers id start s).2 := by
  cases stage with
  | entering =>
    rw [Subscribing.proceed]
    split
    · rename_i hfree
      split
      · exact .idle nofun rfl rfl
      · rename_i hrun
        exact .enter id hfree (Bool.eq_false_iff.2 hrun) rfl rfl rfl
    · exact .idle (fun _ h => h) rfl rfl
  | clearing => exact .idle (fun _ h => h) rfl rfl
  | loading =>
    rw [Subscribing.proceed]
    split
    · exact .idle nofun rfl rfl
    · exact .idle (fun _ h => h) rfl rfl
  | opening saved =>
    rw [Subscribing.proceed]
    split
    · exact .idle nofun rfl rfl
    · exact .spawn id _ rfl rfl rfl rfl
  | returned outcome => exact .idle nofun rfl rfl

/-- Unsubscribing, by itself or as a part of shutting down. -/
theorem effect_of_unsubscribing {stage : Unsubscribing} (hheld : call'.held = none) (hjoins : call.joins = stage.joins)
    (hjoins' : call'.joins = (stage.proceed free id r).1.joins) :
    Effect free r call call' (stage.proceed free id r).2 := by
  have hno : ∀ id, call'.held = some id → call.held = some id := fun id h => by simp [hheld] at h
  cases stage with
  | entering =>
    rw [Unsubscribing.proceed] at hjoins' ⊢
    cases free with
    | false => exact .idle hno hjoins hjoins'
    | true =>
      rw [if_pos rfl] at hjoins' ⊢
      cases hk : r.registered.get? id with
      | none =>
        simp only [Registry.release, hk] at hjoins' ⊢
        exact .idle hno hjoins hjoins'
      | some k =>
        simp only [Registry.release, hk] at hjoins' ⊢
        exact .release id k rfl hk hheld hjoins hjoins'
  | joining k =>
    rw [Unsubscribing.proceed] at hjoins' ⊢
    cases hk : r.outcome? k with
    | none =>
      simp only [hk] at hjoins' ⊢
      exact .quiet hno (fun j hj => hjoins.trans (hjoins'.symm.trans hj)) fun j hj =>
        .inl (hjoins'.trans (hjoins.symm.trans hj))
    | some outcome =>
      simp only [hk] at hjoins' ⊢
      refine .quiet hno (fun j hj => ?_) fun j hj => .inr ⟨outcome, ?_⟩
      · cases hjoins'.symm.trans hj
      · cases hjoins.symm.trans hj
        exact hk
  | returned outcome => exact .idle hno hjoins hjoins'

theorem effect_proceed (free answers : Bool) (s : System) (call : Call) :
    Effect free s.registry call (call.proceed free answers s).1 (call.proceed free answers s).2 := by
  cases call with
  | subscribe id start stage => exact effect_subscribe stage
  | unsubscribe id stage => exact effect_of_unsubscribing rfl rfl rfl
  | shutdown stage =>
    cases stage with
    | entering =>
      cases free with
      | false => exact .idle nofun rfl rfl
      | true =>
        refine .idle nofun rfl ?_
        simp only [proceed, ShuttingDown.proceed]
        exact joins_next [] s.registry.ids
    | closing closed id stage rest =>
      simp only [proceed, ShuttingDown.proceed]
      cases hs : stage.proceed free id s.registry with
      | mk stage' r =>
        have heff (call' : Call) (hjoins' : call'.joins = stage'.joins) (hheld : call'.held = none) :
            Effect free s.registry (.shutdown (.closing closed id stage rest)) call' r := by
          have h : Effect free s.registry (.shutdown (.closing closed id stage rest)) call'
              (stage.proceed free id s.registry).2 :=
            effect_of_unsubscribing hheld rfl (by rw [hjoins', hs])
          rwa [hs] at h
        cases stage' with
        | returned outcome => exact heff _ (joins_next _ rest) rfl
        | _ => exact heff _ rfl rfl
    | returned outcomes => exact .idle nofun rfl rfl

end Call

/-! ## What happens elsewhere -/

namespace Worker

/-- A worker that has gone on: a stop signal is kept, and a worker that has finished stays as it is. -/
structure Advances (w w' : Worker) : Prop where
  subscriber : w'.subscriber = w.subscriber
  stopped : w'.stopped = w.stopped
  finished : w.isFinished = true → w' = w

theorem Advances.refl (w : Worker) : w.Advances w := ⟨rfl, rfl, fun _ => rfl⟩

theorem stopped_receive (codec : Codec) (item : Except StoreError Change) (w : Worker) :
    (w.receive codec item).stopped = w.stopped := by
  unfold receive
  split
  · rfl
  · split <;> rfl

theorem advances_poll (codec : Codec) (log : EventLog) (w : Worker) : w.Advances (w.poll codec log) where
  subscriber := subscriber_poll codec log w
  stopped := by
    unfold poll
    split
    · split
      · rfl
      · split
        · exact stopped_receive codec _ _
        · rfl
        · rfl
    · rfl
  finished h := poll_of_ne_idle codec log (stage_of_isFinished h).1

/-- A worker that was told to stop takes no event. -/
theorem stage_poll_of_stopped (codec : Codec) (log : EventLog) {w : Worker} (h : w.stopped = true) :
    w.stage ≠ .idle ∨ ∀ event position, (w.poll codec log).stage ≠ .handling event position := by
  cases hst : w.stage with
  | idle =>
    right
    simp [poll, hst, h, finish]
  | _ => exact .inl nofun

theorem advances_settle {σ : Type} (save : String → Position → σ → Except StoreError SaveOutcome × σ)
    (verdict : Verdict) (s : σ) (w : Worker) : w.Advances (w.settle save verdict s).1 where
  subscriber := subscriber_settle save verdict s w
  stopped := by
    unfold settle
    split
    · split
      · split <;> rfl
      · rfl
      · rfl
    · rfl
  finished h := by rw [settle_of_ne save verdict s (stage_of_isFinished h).2]

end Worker

namespace Registry

/-- A registry whose workers have gone on. -/
structure Advances (r r' : Registry) : Prop where
  registered : r'.registered = r.registered
  workers : ∀ k : Nat, Option.Rel Worker.Advances r.workers[k]? r'.workers[k]?

variable {r r' : Registry} {k : Nat} {w w' : Worker}

theorem Advances.refl (r : Registry) : r.Advances r where
  registered := rfl
  workers k := by
    cases r.workers[k]? with
    | none => exact .none
    | some w => exact .some (.refl w)

theorem advances_update (hk : r.workers[k]? = some w) (h : w.Advances w') : r.Advances (r.update k fun _ => w') where
  registered := rfl
  workers j := by
    rw [getElem?_update]
    by_cases hj : k = j
    · subst hj
      rw [hk]
      simpa using h
    · cases r.workers[j]? with
      | none => exact .none
      | some v => simpa [hj] using Worker.Advances.refl v

theorem Advances.getElem? (h : r.Advances r') (hk : r.workers[k]? = some w) :
    ∃ w', r'.workers[k]? = some w' ∧ w.Advances w' := by
  have hr := h.workers k
  rw [hk] at hr
  cases hr' : r'.workers[k]? with
  | none =>
    rw [hr'] at hr
    cases hr
  | some w' =>
    rw [hr'] at hr
    cases hr with
    | some hw => exact ⟨w', rfl, hw⟩

theorem Advances.exists_of_getElem? (h : r.Advances r') (hk : r'.workers[k]? = some w') :
    ∃ w, r.workers[k]? = some w ∧ w.Advances w' := by
  have hr := h.workers k
  rw [hk] at hr
  cases hr' : r.workers[k]? with
  | none =>
    rw [hr'] at hr
    cases hr
  | some w =>
    rw [hr'] at hr
    cases hr with
    | some hw => exact ⟨w, rfl, hw⟩

end Registry

theorem System.advances_step (store codec : Codec) (s : System) {a : Action} (h : a.Outside) :
    s.registry.Advances (s.step store codec a).registry := by
  cases a with
  | append call =>
    rw [step]
    split <;> exact .refl _
  | poll k =>
    cases hk : s.registry.workers[k]? with
    | none =>
      simp only [step, hk]
      exact .refl _
    | some w =>
      rw [step_poll hk]
      exact Registry.advances_update hk (w.advances_poll codec s.log)
  | settle k verdict saves =>
    cases hk : s.registry.workers[k]? with
    | none =>
      simp only [step, hk]
      exact .refl _
    | some w =>
      by_cases hst : ∃ event position, w.stage = .handling event position
      · obtain ⟨event, position, hst⟩ := hst
        rw [step_settle hk hst]
        exact Registry.advances_update hk (w.advances_settle (save saves) verdict s.positions)
      · rw [step_settle_of_ne hk fun event position hs => hst ⟨event, position, hs⟩]
        exact .refl _
  | save subscriber position => exact .refl _
  | delete subscriber => exact .refl _
  | _ => exact absurd h id

end Chronicle
