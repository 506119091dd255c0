import Chronicle.Proofs.Subscription.Answering
import Chronicle.Proofs.Subscription.Endings
import Chronicle.Proofs.Subscription.Shutdown
import Chronicle.Proofs.Subscription.Underway

/-!
# The life cycle of a registry

For every run of one caller's subscriptions, unsubscriptions and shutdowns, with whatever steps of the workers in
between, what each call answers and what it leaves behind (`Usage.life_cycle`). The calls are served: positions are
loaded and feeds are opened. Saves may fail, and feeds may hold anything, errors included; so a worker also ends when
its feed yields an error, and that error is then its outcome (`Usage.torn_feed`).
-/

namespace Chronicle

namespace Usage

variable {σ : Type}

section

variable (stores : Stores σ) (codec : Codec)

/-- The stores give every call of a run what it asks them for. -/
def served : List (Move σ) → Usage σ → Bool
  | [], _ => true
  | move :: moves, c => (c.acting move).all (·.served stores c.store) && served moves (c.step stores codec move)

/-- What a run leads to, from the beginning. -/
def after (s : σ) (moves : List (Move σ)) : Usage σ := run stores codec moves (initial s)

end

variable {stores : Stores σ} {codec : Codec} {c d : Usage σ} {s : σ} {move : Move σ} {moves m : List (Move σ)}
  {call : Call} {q : Request} {id : String} {k : Nat}

theorem served_cons : served stores codec (move :: moves) c = true ↔
    (∀ call, c.acting move = some call → call.served stores c.store = true) ∧
      served stores codec moves (c.step stores codec move) = true := by
  rw [served, Bool.and_eq_true]
  refine and_congr_left fun _ => ?_
  cases c.acting move <;> simp

theorem served_append : served stores codec (moves ++ m) c = true ↔
    served stores codec moves c = true ∧ served stores codec m (run stores codec moves c) = true := by
  induction moves generalizing c with
  | nil => simp [served]
  | cons move moves ih => rw [List.cons_append, served_cons, served_cons, ih, run_cons, and_assoc]

end Usage

namespace Call

theorem request_call (q : Request) : q.call.request = q := by
  cases q <;> rfl

theorem request_advance {σ : Type} (stores : Stores σ) (s : σ) (r : Registry) (call : Call) :
    (call.advance stores s r).1.request = call.request := by
  cases call <;> rfl

/-- Only a subscription that loads the position touches the stores. -/
theorem store_advance {σ : Type} (stores : Stores σ) (s : σ) (r : Registry) {call : Call}
    (h : ∀ id start, call ≠ .subscribe id start .loading) : (call.advance stores s r).2.1 = s := by
  cases call with
  | subscribe id start stage =>
    cases stage with
    | entering =>
      simp only [advance, Subscribing.advance]
      split <;> rfl
    | loading => exact absurd rfl (h id start)
    | opening saved =>
      simp only [advance, Subscribing.advance]
      split <;> rfl
    | _ => rfl
  | _ => rfl

end Call

namespace Usage

variable {σ : Type} {stores : Stores σ} {codec : Codec} {c d : Usage σ} {s : σ} {move : Move σ}
  {moves m : List (Move σ)} {call : Call} {q : Request} {id : String} {k : Nat}

/-! ## From a call to its answer -/

/-- What has become of a call that was made in `c`. -/
structure Since (c : Usage σ) (q : Request) (call : Call) (d : Usage σ) : Prop where
  request : call.request = q
  underway : call.Underway c.registry d.registry
  answers : d.answers = c.answers ++ call.answer?.toList
  call : d.call = if call.answer?.isSome then none else some call

theorem since_request (hc : c.call = none) (stores : Stores σ) (codec : Codec) (q : Request) :
    Since c q (q.call.advance stores c.store c.registry).1 (c.step stores codec (.request q)) := by
  have hact : c.acting (.request q) = some q.call := by simp [acting, hc]
  rw [step_of_acting hact]
  exact ⟨(Call.request_advance ..).trans (Call.request_call q), Call.underway_request stores c.store c.registry q,
    rfl, rfl⟩

theorem acting_of_ne_request (hm : ∀ q, move ≠ .request q) (hact : c.acting move = some call) :
    c.call = some call := by
  cases move with
  | request q => exact absurd rfl (hm q)
  | proceed => exact hact
  | _ => cases hact

theorem Since.step (h : Since c q call d) (hm : ∀ q, move ≠ .request q) (codec : Codec)
    (hserved : ∀ call, d.acting move = some call → call.served stores d.store = true) :
    ∃ call', Since c q call' (d.step stores codec move) := by
  cases hact : d.acting move with
  | none =>
    have he := elsewhere_of_acting stores codec hact
    exact ⟨call, h.request, h.underway.advances he.registry, he.answers.trans h.answers, he.call.trans h.call⟩
  | some acting =>
    have hcall := h.call.symm.trans (acting_of_ne_request hm hact)
    cases ha : call.answer? with
    | some a => simp [ha] at hcall
    | none =>
      obtain rfl : call = acting := by simpa [ha] using hcall
      have hanswers : d.answers = c.answers := by simpa [ha] using h.answers
      rw [step_of_acting hact]
      refine ⟨_, (Call.request_advance ..).trans h.request, h.underway.advance ha (hserved call hact), ?_, rfl⟩
      rw [← hanswers]
      rfl

theorem Since.run (h : Since c q call d) (hm : Uncalled m) (hserved : served stores codec m d = true) :
    ∃ call', Since c q call' (run stores codec m d) := by
  induction m generalizing d call with
  | nil => exact ⟨call, h⟩
  | cons move m ih =>
    obtain ⟨hmove, hm⟩ := uncalled_cons.1 hm
    obtain ⟨hstep, hserved⟩ := served_cons.1 hserved
    obtain ⟨call', h'⟩ := h.step hmove codec hstep
    exact ih h' hm hserved

/-! ## The listed ids -/

/-- Between calls the ids listed are those that the answers tell of; during a call, those listed when it was made. -/
structure Tracked (c : Usage σ) : Prop where
  idle : c.call = none → c.registry.Lists c.answers
  busy : ∀ call, c.call = some call →
    call.answer? = none ∧ ∃ r₀ : Registry, r₀.Lists c.answers ∧ call.Underway r₀ c.registry

theorem tracked_initial (s : σ) : (initial s).Tracked where
  idle _ id := by simp [initial, Registry.ids, Registry.empty, NameMap.names, NameMap.empty, Enrolled]
  busy _ h := by cases h

theorem tracked_goOn {r₀ : Registry} (hl : r₀.Lists c.answers)
    (hu : (call.advance stores c.store c.registry).1.Underway r₀ (call.advance stores c.store c.registry).2.2) :
    (c.goOn stores call).Tracked := by
  constructor
  · intro hnone
    cases ha : (call.advance stores c.store c.registry).1.answer? with
    | none => simp [goOn, ha] at hnone
    | some a => simpa [goOn, ha] using hu.lists ha hl
  · intro call' hcall'
    obtain ⟨rfl, ha⟩ := call_goOn hcall'
    refine ⟨ha, r₀, ?_, hu⟩
    simpa [goOn, ha] using hl

theorem Tracked.step (h : c.Tracked) (codec : Codec)
    (hserved : ∀ call, c.acting move = some call → call.served stores c.store = true) :
    (c.step stores codec move).Tracked := by
  cases hact : c.acting move with
  | none =>
    have he := elsewhere_of_acting stores codec hact
    refine ⟨fun hnone => ?_, fun call hcall => ?_⟩
    · intro id
      rw [he.answers, ← h.idle (he.call.symm.trans hnone) id, Registry.ids, he.registry.registered, Registry.ids]
    · obtain ⟨ha, r₀, hl, hu⟩ := h.busy call (he.call.symm.trans hcall)
      exact ⟨ha, r₀, he.answers ▸ hl, hu.advances he.registry⟩
  | some call =>
    rw [step_of_acting hact]
    obtain hcall | ⟨hnone, q, rfl⟩ := acting_cases hact
    · obtain ⟨ha, r₀, hl, hu⟩ := h.busy call hcall
      exact tracked_goOn hl (hu.advance ha (hserved call hact))
    · exact tracked_goOn (h.idle hnone) (Call.underway_request stores c.store c.registry q)

theorem Tracked.run (h : c.Tracked) (hserved : served stores codec moves c = true) :
    (run stores codec moves c).Tracked := by
  induction moves generalizing c with
  | nil => exact h
  | cons move moves ih =>
    obtain ⟨hstep, hserved⟩ := served_cons.1 hserved
    exact ih (h.step codec hstep) hserved

/-! ## The life cycle -/

/-- The registered worker of an id has not finished. -/
def Runs (c : Usage σ) (id : String) : Prop :=
  ∃ k w, c.registry.registered.get? id = some k ∧ c.registry.Owns id k w ∧ w.isFinished = false

/-- From `c` to `d`, a caller has subscribed an id or has been refused. -/
inductive Subscribed (id : String) (c d : Usage σ) : Prop where
  /-- The id has a worker that has not finished, and nothing changes. -/
  | refused (hruns : c.Runs id) (hanswers : d.answers = c.answers ++ [.subscribe id (.error (.alreadySubscribed id))])
      (hregistered : d.registry.registered = c.registry.registered)
      (hworkers : d.registry.workers.length = c.registry.workers.length)
  /-- It has none, and gets a new one. -/
  | started (hruns : ¬c.Runs id) (hanswers : d.answers = c.answers ++ [.subscribe id (.ok ())])
      (hregistered : d.registry.registered = c.registry.registered.insert id c.registry.workers.length)
      (hworkers : d.registry.workers.length = c.registry.workers.length + 1)
      (howns : ∃ w, d.registry.Owns id c.registry.workers.length w)

section

variable (stores : Stores σ) (codec : Codec) (s : σ)

/-- The outcome of a subscriber's worker: that of the first ending that it has met in a run. -/
def Returns (moves : List (Move σ)) (k : Nat) (id : String) (outcome : Outcome) : Prop :=
  ∃ ending, (endings stores codec k moves (initial s)).head? = some ending ∧ outcome = ending.outcome id

/-- From `c` to `d`, in a run, a caller has unsubscribed an id. -/
inductive Unsubscribed (moves : List (Move σ)) (id : String) (c d : Usage σ) : Prop where
  | unknown (hid : id ∉ c.registry.ids)
      (hanswers : d.answers = c.answers ++ [.unsubscribe id (.error (.notSubscribed id))])
      (hregistered : d.registry.registered = c.registry.registered)
  /-- The id is taken out, and the caller gets the outcome of the worker that it had. -/
  | released {k : Nat} {outcome : Outcome} (hk : c.registry.registered.get? id = some k)
      (hreturns : Returns stores codec s moves k id outcome)
      (hanswers : d.answers = c.answers ++ [.unsubscribe id outcome])
      (hregistered : d.registry.registered = c.registry.registered.erase id)

/-- From `c` to `d`, in a run that ends with the moves `m`, a caller has shut the registry down. -/
structure ShutDown (moves m : List (Move σ)) (outcomes : List (String × Outcome)) (c d : Usage σ) : Prop where
  answers : d.answers = c.answers ++ [.shutdown outcomes]
  ids : outcomes.map Prod.fst = c.registry.ids
  ascending : (outcomes.map Prod.fst).Pairwise (· < ·)
  returns : ∀ e ∈ outcomes, ∃ k, c.registry.registered.get? e.1 = some k ∧ Returns stores codec s moves k e.1 e.2
  registered : d.registry.registered = .empty
  /-- Unsubscribing the ids, with the same steps of the workers, has the same outcomes. -/
  unsubscriptions : ∃ m' : List (Move σ), m'.filter (!·.isCall) = m.filter (!·.isCall) ∧
    run stores codec m' c = { d with answers := c.answers ++ unsubscriptions outcomes }

/-- The last call of a run, made when no other was to be answered, has been answered itself. -/
structure LastCall (before : List (Move σ)) (q : Request) (m moves : List (Move σ)) : Prop where
  split : moves = before ++ .request q :: m
  alone : Uncalled m
  made : (after stores codec s before).call = none
  answered : (after stores codec s moves).call = none

/-- What is true of a registry after a run, and of the last call of the run. -/
structure LifeCycle (moves : List (Move σ)) : Prop where
  /-- The ids are listed in strictly ascending order. -/
  ascending : (after stores codec s moves).registry.ids.Pairwise (· < ·)
  /-- Between calls, the ids that were subscribed and have not been taken out since are listed. -/
  listed : (after stores codec s moves).call = none →
    (after stores codec s moves).registry.Lists (after stores codec s moves).answers
  /-- Each listed id has a worker of its own, which has not been told to stop. -/
  live : (after stores codec s moves).registry.Live
  /-- A worker has finished just if it has met an ending, and the first one says how. -/
  outcomes : ∀ k id, (after stores codec s moves).registry.owner? k = some id →
    (after stores codec s moves).registry.outcome? k =
      (endings stores codec k moves (initial s)).head?.map (Ending.outcome id)
  subscribed : ∀ before id start m, LastCall stores codec s before (.subscribe id start) m moves →
    Subscribed id (after stores codec s before) (after stores codec s moves)
  unsubscribed : ∀ before id m, LastCall stores codec s before (.unsubscribe id) m moves →
    Unsubscribed stores codec s moves id (after stores codec s before) (after stores codec s moves)
  shutDown : ∀ before m, LastCall stores codec s before .shutdown m moves →
    ∃ outcomes, ShutDown stores codec s moves m outcomes (after stores codec s before) (after stores codec s moves)
  /-- Only a subscription touches the stores, where it loads the position: saved positions are kept. -/
  kept : ∀ move : Move σ, move.isCall = true →
    (∀ id start, (after stores codec s moves).call ≠ some (.subscribe id start .loading)) →
    ((after stores codec s moves).step stores codec move).store = (after stores codec s moves).store
  /-- The call that is still to be answered can be, without another one. -/
  answered : ∃ m, Uncalled m ∧ (after stores codec s (moves ++ m)).call = none

end

variable {before : List (Move σ)} {start : StartAt}

theorem after_append : after stores codec s (moves ++ m) = run stores codec m (after stores codec s moves) :=
  run_append

theorem sound_after (stores : Stores σ) (codec : Codec) (s : σ) (moves : List (Move σ)) :
    (after stores codec s moves).Sound :=
  (sound_initial s).run stores codec moves

theorem Sound.runs_iff (h : c.Sound) : c.registry.isRunning id = true ↔ c.Runs id := by
  rw [Registry.isRunning, Registry.worker?, Runs]
  cases hk : c.registry.registered.get? id with
  | none => simp
  | some k =>
    obtain ⟨w, ho, -⟩ := h.live id k hk
    simp only [Option.bind_eq_bind, Option.bind_some, ho.1, Option.any_some, Bool.not_eq_true', Option.some.injEq]
    constructor
    · intro hf
      exact ⟨k, w, rfl, ho, hf⟩
    · rintro ⟨j, v, rfl, hv, hf⟩
      cases ho.1.symm.trans hv.1
      exact hf

/-- What a worker that was registered has returned since. -/
theorem returns_of_outcome? {outcome : Outcome}
    (hk : (after stores codec s before).registry.registered.get? id = some k)
    (ho : (after stores codec s (before ++ m)).registry.outcome? k = some outcome) :
    Returns stores codec s (before ++ m) k id outcome := by
  obtain ⟨w, hw, -⟩ := (sound_after stores codec s before).live id k hk
  have howner : (after stores codec s (before ++ m)).registry.owner? k = some id := by
    rw [after_append]
    exact owner?_run (Registry.owner?_eq_some_iff.2 ⟨w, hw⟩) stores codec m
  have hrun := outcome?_run_initial stores codec (before ++ m) s howner
  obtain ⟨ending, he, rfl⟩ := Option.map_eq_some_iff.1 (hrun.symm.trans ho)
  exact ⟨ending, he, rfl⟩

/-- The last call with its answer. -/
theorem LastCall.exists_since (h : LastCall stores codec s before q m moves)
    (hserved : served stores codec moves (initial s) = true) :
    ∃ (call : Call) (a : Answer), call.request = q ∧ call.answer? = some a ∧
      call.Underway (after stores codec s before).registry (after stores codec s moves).registry ∧
      (after stores codec s moves).answers = (after stores codec s before).answers ++ [a] := by
  obtain rfl := h.split
  obtain ⟨-, hlater⟩ := served_append.1 hserved
  obtain ⟨-, hlater⟩ := served_cons.1 hlater
  obtain ⟨call, hsince⟩ := (since_request h.made stores codec q).run h.alone hlater
  have hafter : after stores codec s (before ++ .request q :: m) =
      run stores codec m ((after stores codec s before).step stores codec (.request q)) := after_append
  rw [← hafter] at hsince
  cases ha : call.answer? with
  | none =>
    have hcall := hsince.call.symm.trans h.answered
    simp [ha] at hcall
  | some a =>
    have hanswers := hsince.answers
    rw [ha] at hanswers
    exact ⟨call, a, hsince.request, ha, hsince.underway, hanswers⟩

theorem LastCall.subscribed (h : LastCall stores codec s before (.subscribe id start) m moves)
    (hserved : served stores codec moves (initial s) = true) :
    Subscribed id (after stores codec s before) (after stores codec s moves) := by
  obtain ⟨call, a, hq, ha, hu, hanswers⟩ := h.exists_since hserved
  have hruns : (after stores codec s before).registry.isRunning id = true ↔ (after stores codec s before).Runs id :=
    (sound_after stores codec s before).runs_iff
  cases hu with
  | refused hrun hreg hlen =>
    cases hq
    cases ha
    exact .refused (hruns.1 hrun) hanswers hreg hlen
  | @subscribing _ _ stage hheld =>
    cases stage with
    | returned outcome => cases hheld
    | _ => cases ha
  | subscribed hrun hreg hlen =>
    cases hq
    cases ha
    have hget : (after stores codec s moves).registry.registered.get? id =
        some (after stores codec s before).registry.workers.length := by
      rw [hreg, NameMap.get?_insert, if_pos rfl]
    obtain ⟨w, hw, -⟩ := (sound_after stores codec s moves).live id _ hget
    exact .started (mt hruns.2 (Bool.eq_false_iff.1 hrun)) hanswers hreg hlen ⟨w, hw⟩
  | _ => cases hq

theorem LastCall.unsubscribed (h : LastCall stores codec s before (.unsubscribe id) m moves)
    (hserved : served stores codec moves (initial s) = true) :
    Unsubscribed stores codec s moves id (after stores codec s before) (after stores codec s moves) := by
  obtain ⟨call, a, hq, ha, hu, hanswers⟩ := h.exists_since hserved
  cases hu with
  | unknown hk hreg =>
    cases hq
    cases ha
    exact .unknown (mt Registry.mem_ids_iff.1 (not_not.2 hk)) hanswers hreg
  | unsubscribed hk hreg ho =>
    cases hq
    cases ha
    rw [h.split] at ho ⊢
    exact .released hk (returns_of_outcome? hk ho) (h.split ▸ hanswers) (h.split ▸ hreg)
  | joining => cases ha
  | _ => cases hq

theorem LastCall.shutDown (h : LastCall stores codec s before .shutdown m moves)
    (hserved : served stores codec moves (initial s) = true) :
    ∃ outcomes,
      ShutDown stores codec s moves m outcomes (after stores codec s before) (after stores codec s moves) := by
  obtain ⟨call, a, hq, ha, hu, hanswers⟩ := h.exists_since hserved
  cases hu with
  | @closed outcomes hclosing =>
    cases ha
    obtain rfl := h.split
    have hids : outcomes.map Prod.fst = (after stores codec s before).registry.ids := by simpa using hclosing.ids
    refine ⟨outcomes, hanswers, hids, hids ▸ Registry.pairwise_ids _, fun e he => ?_, ?_, ?_⟩
    · obtain ⟨k, hk, ho⟩ := hclosing.outcomes e he
      exact ⟨k, hk, returns_of_outcome? hk ho⟩
    · exact NameMap.ext_get? fun name => by simp [hclosing.registered]
    · rw [after_append] at hanswers ⊢
      exact exists_unsubscriptions h.made h.alone hanswers
  | closing | leaving => cases ha
  | _ => cases hq

theorem store_step (hm : move.isCall = true) (h : ∀ id start, c.call ≠ some (.subscribe id start .loading)) :
    (c.step stores codec move).store = c.store := by
  cases hact : c.acting move with
  | none =>
    cases move with
    | request q =>
      cases hc : c.call with
      | none => simp [acting, hc] at hact
      | some call => simp only [step, hc]
    | proceed =>
      have hc : c.call = none := hact
      simp only [step, hc]
    | _ => cases hm
  | some call =>
    rw [step_of_acting hact]
    refine Call.store_advance stores c.store c.registry fun id start heq => ?_
    obtain hcall | ⟨-, q, rfl⟩ := acting_cases hact
    · exact h id start (hcall.trans (congrArg some heq))
    · cases q <;> cases heq

theorem life_cycle (stores : Stores σ) (codec : Codec) (s : σ) (moves : List (Move σ))
    (hserved : served stores codec moves (initial s) = true) : LifeCycle stores codec s moves where
  ascending := Registry.pairwise_ids _
  listed := ((tracked_initial s).run hserved).idle
  live := (sound_after stores codec s moves).live
  outcomes k id ho := outcome?_run_initial stores codec moves s ho
  subscribed before id start m h := h.subscribed hserved
  unsubscribed before id m h := h.unsubscribed hserved
  shutDown before m h := h.shutDown hserved
  kept move hm h := store_step hm h
  answered := by
    obtain ⟨m, hm, hcall⟩ := (sound_after stores codec s moves).answerable stores codec
    exact ⟨m, hm, by rwa [after_append]⟩

/-! A run with subscribers that stall, come back and are closed. -/

/-- A call to subscribe, up to its answer. -/
def subscribing (id : String) (start : StartAt) : List (Move σ) :=
  .request (.subscribe id start) :: List.replicate 3 .proceed

/-- Two events in memory. -/
def twoNotes : EventLog × Positions := (System.twoNotes, .empty)

/-- The handler of the first subscriber fails at the first event, and, after they have come back, at the second one,
while the registry is being shut down. -/
def comeback : List (Move (EventLog × Positions)) :=
  List.flatten
    [subscribing "a" .beginning, [.poll 0, .settle 0 (.failure "no")],
      subscribing "b" .now, [.request (.unsubscribe "c")],
      subscribing "a" .beginning, [.poll 2, .settle 2 .success, .poll 2, .request (.subscribe "a" .now)],
      [.request .shutdown, .proceed, .settle 2 (.failure "no"), .proceed, .proceed, .poll 1, .proceed]]

theorem life_cycle_comeback :
    served (.inMemory true) System.notes comeback (initial twoNotes) = true ∧
      LifeCycle (.inMemory true) System.notes twoNotes comeback ∧
      (after (.inMemory true) System.notes twoNotes comeback).answers =
        [.subscribe "a" (.ok ()), .subscribe "b" (.ok ()), .unsubscribe "c" (.error (.notSubscribed "c")),
          .subscribe "a" (.ok ()), .subscribe "a" (.error (.alreadySubscribed "a")),
          .shutdown [("a", .error (.handler "a" "s" 1 "no")), ("b", .ok ())]] := by
  have hserved : served (.inMemory true) System.notes comeback (initial twoNotes) = true := rfl
  exact ⟨hserved, life_cycle (.inMemory true) System.notes twoNotes comeback hserved, rfl⟩

/-! A feed that yields an error. -/

/-- What the feed yields. -/
def tear : StoreError := .unsupported (.other "boom")

/-- Stores in memory whose feeds yield an error, and then nothing more. -/
def torn : Stores (EventLog × Positions) :=
  { Stores.inMemory true with openFeed := fun _ _ => .ok (.recorded [.error tear] false) }

/-- A worker meets the error, and is unsubscribed. -/
def tornRun : List (Move (EventLog × Positions)) :=
  subscribing "a" .beginning ++ [.poll 0, .request (.unsubscribe "a"), .proceed]

/-- The worker was not stopped and its feed has not ended, and nothing could not be decoded, handled or saved; yet it
returns an error. -/
theorem torn_feed :
    served torn System.notes tornRun (initial twoNotes) = true ∧
      endings torn System.notes 0 tornRun (initial twoNotes) = [.feedFailed tear] ∧
      (after torn System.notes twoNotes tornRun).answers =
        [.subscribe "a" (.ok ()), .unsubscribe "a" (.error (.store tear))] :=
  ⟨rfl, rfl, rfl⟩

end Usage

end Chronicle
