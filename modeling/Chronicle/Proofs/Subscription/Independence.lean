import Chronicle.Proofs.Subscription.Parts

/-!
# Subscribers on their own

What a subscriber sees of a system is a system with nobody else in it (`System.only`). The subscriber sees the appends,
their own calls and the steps of their own workers (`System.seenBy`). A step that they see is the same step of what they
see, with the same response (`System.only_step_of_seen`), and any other step changes nothing of it
(`System.only_step_of_unseen`). So a run looks to them like one without anybody else (`System.run_alone`), and what they
are told depends on what they see alone (`System.independence`).
-/

namespace Chronicle

/-! ## Parts of a system -/

/-- The same event in the hands of a worker with another number. -/
def Handover.renumber (f : Nat → Nat) (h : Handover) : Handover := { h with worker := f h.worker }

namespace System

variable {store codec : Codec} {s s' : System} {id other : String} {j k : Nat} {w w' : Worker} {a a' : Action}

/-- What a subscriber sees of a system: the log, and all that is theirs. -/
def only (id : String) (s : System) : System where
  log := s.log
  positions := s.positions.only id
  registry := s.registry.only id
  journal := (s.handed id).map (.renumber (s.registry.rank id))

/-- The registered numbers and those in the journal are numbers of workers of the subscribers. -/
structure Coherent (s : System) : Prop where
  registry : s.registry.Coherent
  journal : ∀ h ∈ s.journal, ∃ w, s.registry.Owns h.subscriber h.worker w

theorem coherent_initial (log : EventLog) (positions : Positions) : (initial log positions).Coherent where
  registry _ _ hk := by cases hk
  journal _ hh := by cases hh

/-- The feed that a subscription can open. -/
def feedFor (id : String) (start : StartAt) (loads : Bool) (s : System) : Except StoreError Feed :=
  (load loads id s.positions).1 >>= fun saved => s.log.openFeed (start.position saved)

theorem subscribe_eq (s : System) (id : String) (start : StartAt) (loads : Bool) :
    s.registry.subscribe (load loads) (fun p => s.log.openFeed p) id start s.positions =
      ((s.registry.enroll (s.feedFor id start loads) id).1, s.positions,
        (s.registry.enroll (s.feedFor id start loads) id).2) := by
  unfold Registry.subscribe Registry.enroll
  split
  · rfl
  · cases loads with
    | false => rfl
    | true =>
      have hfed : s.feedFor id start true = s.log.openFeed (start.position (s.positions.load id)) := rfl
      rw [hfed]
      simp only [load, if_true]
      cases s.log.openFeed (start.position (s.positions.load id)) <;> rfl

theorem step_subscribe (s : System) (id : String) (start : StartAt) (loads : Bool) :
    s.step store codec (.subscribe id start loads) =
      { s with registry := (s.registry.enroll (s.feedFor id start loads) id).2 } := by
  simp only [step, subscribe_eq]

theorem feedFor_only (s : System) (id : String) (start : StartAt) (loads : Bool) :
    (s.only id).feedFor id start loads = s.feedFor id start loads := by
  cases loads with
  | false => rfl
  | true =>
    show s.log.openFeed (start.position ((s.positions.only id).load id)) = _
    rw [Positions.load_only_self]
    rfl

/-! ### The journal -/

theorem mem_journal_step {h : Handover} (hh : h ∈ (s.step store codec a).journal) :
    (∃ h' ∈ s.journal, h'.subscriber = h.subscriber ∧ h'.worker = h.worker) ∨
      ∃ w, s.registry.Owns h.subscriber h.worker w := by
  cases a with
  | append call =>
    rw [step] at hh
    split at hh <;> exact .inl ⟨h, hh, rfl, rfl⟩
  | poll k =>
    cases hk : s.registry.workers[k]? with
    | none =>
      simp only [step, hk] at hh
      exact .inl ⟨h, hh, rfl, rfl⟩
    | some w =>
      rw [step_poll hk] at hh
      rcases List.mem_append.1 hh with hh | hh
      · exact .inl ⟨h, hh, rfl, rfl⟩
      · unfold handover at hh
        split at hh
        · cases List.mem_singleton.1 hh
          exact .inr ⟨w, hk, rfl⟩
        · cases hh
  | settle k verdict saves =>
    cases hk : s.registry.workers[k]? with
    | none =>
      simp only [step, hk] at hh
      exact .inl ⟨h, hh, rfl, rfl⟩
    | some w =>
      by_cases hst : ∃ event position, w.stage = .handling event position
      · obtain ⟨event, position, hst⟩ := hst
        rw [step_settle hk hst] at hh
        obtain ⟨h', hh', rfl⟩ := List.mem_map.1 hh
        refine .inl ⟨h', hh', ?_⟩
        split <;> exact ⟨rfl, rfl⟩
      · rw [step_settle_of_ne hk fun event position hs => hst ⟨event, position, hs⟩] at hh
        exact .inl ⟨h, hh, rfl, rfl⟩
  | _ => exact .inl ⟨h, hh, rfl, rfl⟩

theorem Coherent.step (hc : s.Coherent) (store codec : Codec) (a : Action) : (s.step store codec a).Coherent where
  registry := coherent_step hc.registry store codec a
  journal h hh := by
    have hold : ∃ w, s.registry.Owns h.subscriber h.worker w := by
      rcases mem_journal_step hh with ⟨h', hh', hsub, hworker⟩ | hnew
      · rw [← hsub, ← hworker]
        exact hc.journal h' hh'
      · exact hnew
    obtain ⟨w, ho⟩ := hold
    exact exists_owns_step ho store codec a

theorem handover_renumber (f : Nat → Nat) (k : Nat) (w w' : Worker) :
    (handover k w w').map (.renumber f) = handover (f k) w w' := by
  unfold handover
  split <;> rfl

theorem handover_of_eq (hw : w.subscriber = id) (k : Nat) (w' : Worker) :
    (handover k w w').filter (fun h => h.subscriber = id) = handover k w w' := by
  unfold handover
  split
  · exact List.filter_cons_of_pos (by simpa using hw)
  · rfl

theorem handed_answer_eq (k : Nat) (m : Mark) (js : List Handover) :
    (answer k m js).filter (fun h => h.subscriber = id) = answer k m (js.filter fun h => h.subscriber = id) :=
  filter_answer k m js fun _ _ => rfl

theorem answer_renumber {f : Nat → Nat} {js : List Handover} (h : ∀ x ∈ js, f x.worker = f k ↔ x.worker = k)
    (m : Mark) : (answer k m js).map (.renumber f) = answer (f k) m (js.map (.renumber f)) := by
  rw [answer, answer, List.map_map, List.map_map]
  refine List.map_congr_left fun x hx => ?_
  have hiff : f x.worker = f k ∧ x.mark = .pending ↔ x.worker = k ∧ x.mark = .pending := and_congr_left' (h x hx)
  simp only [Function.comp_apply, Handover.renumber, hiff]
  split <;> rfl

/-! ## What a subscriber sees of a step -/

/-- An action as a subscriber sees it, if it concerns them: their workers have the numbers among each other. -/
def seenBy (id : String) (s : System) : Action → Option Action
  | .append call => some (.append call)
  | .save other p => if other = id then some (.save other p) else none
  | .delete other => if other = id then some (.delete other) else none
  | .subscribe other start loads => if other = id then some (.subscribe other start loads) else none
  | .unsubscribe other => if other = id then some (.unsubscribe other) else none
  | .abandon => some .abandon
  | .poll k => if s.registry.owner? k = some id then some (.poll (s.registry.rank id k)) else none
  | .settle k verdict saves =>
    if s.registry.owner? k = some id then some (.settle (s.registry.rank id k) verdict saves) else none

/-- What a call gives back at once. -/
inductive Response where
  | appended (r : Except StoreError AppendResult)
  | saved (outcome : SaveOutcome)
  | deleted (existed : Bool)
  | subscribed (outcome : Outcome)
  /-- The worker for whose end who unsubscribes waits. -/
  | released (worker : Except SubscriptionError Nat)

/-- The same response with another number for the worker. -/
def Response.renumber (f : Nat → Nat) : Response → Response
  | .released worker => .released (worker.map f)
  | r => r

/-- What an action gives back at once, if it is a call. -/
def response (store : Codec) (s : System) : Action → Option Response
  | .append call => some (.appended ((s.log.append store call.stream call.expected call.events).map Prod.fst))
  | .save id p => some (.saved (s.positions.save id p).1)
  | .delete id => some (.deleted (s.positions.delete id).1)
  | .subscribe id start loads => some (.subscribed (s.subscription id start loads))
  | .unsubscribe id => some (.released (s.registry.release id).1)
  | _ => none

theorem subscription_eq (s : System) (id : String) (start : StartAt) (loads : Bool) :
    s.subscription id start loads = (s.registry.enroll (s.feedFor id start loads) id).1 := by
  rw [subscription, subscribe_eq]

theorem only_ext (hlog : s.log = s'.log) (hpositions : s.positions.only id = s'.positions)
    (hregistry : s.registry.only id = s'.registry)
    (hjournal : (s.handed id).map (.renumber (s.registry.rank id)) = s'.journal) : s.only id = s' := by
  rw [only, hlog, hpositions, hregistry, hjournal]

/-- The subscriber sees what becomes of their own worker. -/
theorem only_move (ho : s.registry.Owns id k w) (hw : w'.subscriber = w.subscriber) (ps : Positions)
    (js : List Handover) :
    (⟨s.log, ps, s.registry.update k fun _ => w', js⟩ : System).only id =
      ⟨s.log, ps.only id, (s.registry.only id).update (s.registry.rank id k) fun _ => w',
        (js.filter fun h => h.subscriber = id).map (.renumber (s.registry.rank id))⟩ := by
  have hrank := Registry.rank_update (f := fun _ => w') ho.1 hw id
  have hregistry := Registry.only_update (f := fun _ => w') ho hw
  simp only [only, handed, hrank, hregistry]

theorem only_move_of_ne (hk : s.registry.workers[k]? = some w) (hne : w.subscriber ≠ id)
    (hw : w'.subscriber = w.subscriber) (ps : Positions) (js : List Handover) :
    (⟨s.log, ps, s.registry.update k fun _ => w', js⟩ : System).only id =
      ⟨s.log, ps.only id, s.registry.only id,
        (js.filter fun h => h.subscriber = id).map (.renumber (s.registry.rank id))⟩ := by
  have hrank := Registry.rank_update (f := fun _ => w') hk hw id
  have hregistry := Registry.only_update_of_ne (f := fun _ => w') hk hne hw
  simp only [only, handed, hrank, hregistry]

theorem only_poll (ho : s.registry.Owns id k w) :
    (s.step store codec (.poll k)).only id = (s.only id).step store codec (.poll (s.registry.rank id k)) := by
  rw [step_poll ho.1, step_poll ho.only.1, only_move ho (Worker.subscriber_poll codec s.log w), List.filter_append,
    handover_of_eq ho.2, List.map_append, handover_renumber]
  rfl

theorem only_poll_of_ne (hk : s.registry.workers[k]? = some w) (hw : w.subscriber ≠ id) :
    (s.step store codec (.poll k)).only id = s.only id := by
  rw [step_poll hk, only_move_of_ne hk hw (Worker.subscriber_poll codec s.log w), List.filter_append,
    Positioned.handover_of_ne hw, List.append_nil]
  rfl

/-- A handler's answer is taken with the subscriber's position alone like with those of all. -/
theorem settle_only (hw : w.subscriber = id) (verdict : Verdict) (saves : Bool) (ps : Positions) :
    w.settle (save saves) verdict (ps.only id) =
      ((w.settle (save saves) verdict ps).1, (w.settle (save saves) verdict ps).2.only id) := by
  subst hw
  unfold Worker.settle
  cases w.stage with
  | handling event position =>
    cases verdict with
    | success =>
      cases saves with
      | false => rfl
      | true =>
        simp only [save, if_true]
        rw [(Positions.only_save w.subscriber position ps).2]
    | failure reason => rfl
    | panic => rfl
  | _ => rfl

theorem settle_only_of_ne (hw : w.subscriber ≠ id) (verdict : Verdict) (saves : Bool) (ps : Positions) :
    (w.settle (save saves) verdict ps).2.only id = ps.only id := by
  cases hst : w.stage with
  | handling event position =>
    rcases settle_cases hst verdict saves ps with ⟨-, hsettle⟩ | ⟨-, outcome, hsettle⟩
    · rw [hsettle]
      exact Positions.only_eq (Positions.load_save_of_ne hw position ps)
    · rw [hsettle]
  | _ => rw [Worker.settle_of_ne (save saves) verdict ps (by simp [hst])]

theorem only_settle (hc : s.Coherent) (ho : s.registry.Owns id k w) (verdict : Verdict) (saves : Bool) :
    (s.step store codec (.settle k verdict saves)).only id =
      (s.only id).step store codec (.settle (s.registry.rank id k) verdict saves) := by
  by_cases hst : ∃ event position, w.stage = .handling event position
  · obtain ⟨event, position, hst⟩ := hst
    have hjournal : ∀ x ∈ s.handed id, s.registry.rank id x.worker = s.registry.rank id k ↔ x.worker = k := by
      intro x hx
      obtain ⟨hx, hid⟩ := List.mem_filter.1 hx
      obtain ⟨v, hv⟩ := hc.journal x hx
      rw [of_decide_eq_true hid] at hv
      exact hv.rank_inj ho
    have hsettle : w.settle (save saves) verdict (s.only id).positions = _ :=
      settle_only ho.2 verdict saves s.positions
    have hanswer := answer_renumber hjournal (markOf verdict saves)
    rw [step_settle ho.1 hst, step_settle ho.only.1 hst, hsettle,
      only_move ho (Worker.subscriber_settle (save saves) verdict s.positions w), handed_answer_eq, ← handed, hanswer]
    rfl
  · have hno : ∀ event position, w.stage ≠ .handling event position := fun event position hs =>
      hst ⟨event, position, hs⟩
    rw [step_settle_of_ne ho.1 hno, step_settle_of_ne ho.only.1 hno]

theorem only_settle_of_ne (hc : s.Coherent) (hk : s.registry.workers[k]? = some w) (hw : w.subscriber ≠ id)
    (verdict : Verdict) (saves : Bool) : (s.step store codec (.settle k verdict saves)).only id = s.only id := by
  by_cases hst : ∃ event position, w.stage = .handling event position
  · obtain ⟨event, position, hst⟩ := hst
    have hjournal : ∀ x ∈ s.handed id, ¬(x.worker = k ∧ x.mark = .pending) := by
      rintro x hx ⟨rfl, -⟩
      obtain ⟨hx, hid⟩ := List.mem_filter.1 hx
      obtain ⟨v, hv, hvs⟩ := hc.journal x hx
      cases hk.symm.trans hv
      exact hw (hvs.trans (of_decide_eq_true hid))
    rw [step_settle hk hst, only_move_of_ne hk hw (Worker.subscriber_settle (save saves) verdict s.positions w),
      settle_only_of_ne hw, handed_answer_eq, ← handed, answer_of_forall hjournal]
    rfl
  · rw [step_settle_of_ne hk fun event position hs => hst ⟨event, position, hs⟩]

/-- A change of the registry that keeps the ranks of the workers that are there. -/
theorem only_with_registry (hc : s.Coherent) {r : Registry}
    (hr : ∀ k < s.registry.workers.length, r.rank id k = s.registry.rank id k) :
    ({ s with registry := r } : System).only id = { s.only id with registry := r.only id } := by
  apply only_ext
  case hlog => rfl
  case hpositions => rfl
  case hregistry => rfl
  case hjournal =>
    refine List.map_congr_left fun h hh => ?_
    obtain ⟨w, ho⟩ := hc.journal h (List.mem_filter.1 hh).1
    rw [Handover.renumber, Handover.renumber, hr _ ho.lt]

theorem only_subscribe (hc : s.Coherent) (id other : String) (start : StartAt) (loads : Bool) :
    (s.step store codec (.subscribe other start loads)).only id =
      { s.only id with registry := (s.registry.enroll (s.feedFor other start loads) other).2.only id } := by
  rw [step_subscribe]
  exact only_with_registry hc fun k hk => Registry.rank_enroll (Nat.le_of_lt hk) _

theorem only_unsubscribe (hc : s.Coherent) (id other : String) :
    (s.step store codec (.unsubscribe other)).only id =
      { s.only id with registry := (s.registry.release other).2.only id } :=
  only_with_registry hc fun k _ => congrFun ((Registry.similar_release other s.registry).rank_eq id) k

/-- A step that a subscriber does not see changes nothing for them. -/
theorem only_step_of_unseen (hc : s.Coherent) (store codec : Codec) (ha : s.seenBy id a = none) :
    (s.step store codec a).only id = s.only id := by
  cases a with
  | append call => cases ha
  | save other p =>
    have hne : other ≠ id := by simpa [seenBy] using ha
    exact only_ext rfl (Positions.only_eq (Positions.load_save_of_ne hne p s.positions)) rfl rfl
  | delete other =>
    have hne : other ≠ id := by simpa [seenBy] using ha
    exact only_ext rfl (Positions.only_eq (Positions.load_delete_of_ne hne s.positions)) rfl rfl
  | subscribe other start loads =>
    have hne : other ≠ id := by simpa [seenBy] using ha
    rw [only_subscribe hc, Registry.only_enroll_of_ne hc.registry hne]
    rfl
  | unsubscribe other =>
    have hne : other ≠ id := by simpa [seenBy] using ha
    rw [only_unsubscribe hc, Registry.only_release_of_ne hc.registry hne]
    rfl
  | abandon => cases ha
  | poll k =>
    have hne : s.registry.owner? k ≠ some id := by simpa [seenBy] using ha
    cases hk : s.registry.workers[k]? with
    | none => simp only [step, hk]
    | some w => exact only_poll_of_ne hk fun hw => hne (Registry.owner?_eq_some_iff.2 ⟨w, hk, hw⟩)
  | settle k verdict saves =>
    have hne : s.registry.owner? k ≠ some id := by simpa [seenBy] using ha
    cases hk : s.registry.workers[k]? with
    | none => simp only [step, hk]
    | some w =>
      exact only_settle_of_ne hc hk (fun hw => hne (Registry.owner?_eq_some_iff.2 ⟨w, hk, hw⟩)) verdict saves

theorem owns_of_seen {b : Action} (h : (if s.registry.owner? k = some id then some b else none) = some a') :
    b = a' ∧ ∃ w, s.registry.Owns id k w := by
  split at h
  · rename_i ho
    exact ⟨Option.some.inj h, Registry.owner?_eq_some_iff.1 ho⟩
  · cases h

theorem eq_of_seen {b : Action} (h : (if other = id then some b else none) = some a') : b = a' ∧ other = id := by
  split at h
  · rename_i ho
    exact ⟨Option.some.inj h, ho⟩
  · cases h

/-- A step that a subscriber sees is the same step of what they see, with the same response. -/
theorem only_step_of_seen (hc : s.Coherent) (store codec : Codec) (ha : s.seenBy id a = some a') :
    (s.step store codec a).only id = (s.only id).step store codec a' ∧
      (s.only id).response store a' = (s.response store a).map (.renumber (s.registry.rank id)) := by
  cases a with
  | append call =>
    cases ha
    refine ⟨?_, rfl⟩
    have hlog : (s.only id).log = s.log := rfl
    simp only [step, hlog]
    cases s.log.append store call.stream call.expected call.events <;> rfl
  | save other p =>
    obtain ⟨rfl, rfl⟩ := eq_of_seen ha
    obtain ⟨houtcome, hpositions⟩ := Positions.only_save other p s.positions
    exact ⟨only_ext rfl hpositions.symm rfl rfl, congrArg (fun o => some (Response.saved o)) houtcome⟩
  | delete other =>
    obtain ⟨rfl, rfl⟩ := eq_of_seen ha
    obtain ⟨hexisted, hpositions⟩ := Positions.only_delete other s.positions
    exact ⟨only_ext rfl hpositions.symm rfl rfl, congrArg (fun b => some (Response.deleted b)) hexisted⟩
  | subscribe other start loads =>
    obtain ⟨rfl, rfl⟩ := eq_of_seen ha
    obtain ⟨houtcome, hregistry⟩ :=
      Registry.only_enroll hc.registry (s.feedFor other start loads) other
    constructor
    · rw [only_subscribe hc, step_subscribe, feedFor_only, ← hregistry]
      rfl
    · simp only [response, subscription_eq, feedFor_only]
      exact congrArg (fun o => some (Response.subscribed o)) houtcome
  | unsubscribe other =>
    obtain ⟨rfl, rfl⟩ := eq_of_seen ha
    obtain ⟨hworker, hregistry⟩ := Registry.only_release hc.registry other
    constructor
    · rw [only_unsubscribe hc, ← hregistry]
      rfl
    · exact congrArg (fun w => some (Response.released w)) hworker
  | abandon =>
    cases ha
    refine ⟨?_, rfl⟩
    have habandon : (s.step store codec .abandon).only id = { s.only id with registry := s.registry.abandon.only id } :=
      only_with_registry hc fun k _ => congrFun ((Registry.similar_abandon s.registry).rank_eq id) k
    rw [habandon, Registry.only_abandon hc.registry]
    rfl
  | poll k =>
    obtain ⟨rfl, w, ho⟩ := owns_of_seen ha
    exact ⟨only_poll ho, rfl⟩
  | settle k verdict saves =>
    obtain ⟨rfl, w, ho⟩ := owns_of_seen ha
    exact ⟨only_settle hc ho verdict saves, rfl⟩

/-! ## Runs -/

/-- What a subscriber can ask for: what was delivered to them, their position, whether they are running and whether they
are listed, and how their workers have ended. -/
structure View where
  delivered : List (Nat × StreamEvent × Mark)
  position : Option Position
  running : Bool
  listed : Bool
  outcomes : List (Option Outcome)

/-- What a subscriber can ask for. -/
def view (id : String) (s : System) : View where
  delivered := (s.handed id).map fun h => (h.place, h.event, h.mark)
  position := s.positions.load id
  running := s.registry.isRunning id
  listed := id ∈ s.registry.ids
  outcomes := (s.registry.workers.filter fun w => w.subscriber = id).map Worker.outcome?

theorem view_only (hc : s.Coherent) (id : String) : (s.only id).view id = s.view id := by
  have hhanded : (s.only id).handed id = (s.handed id).map (.renumber (s.registry.rank id)) := by
    refine List.filter_eq_self.2 fun x hx => ?_
    obtain ⟨y, hy, rfl⟩ := List.mem_map.1 hx
    exact (List.mem_filter.1 hy).2
  have hworkers : (s.only id).registry.workers.filter (fun w => w.subscriber = id) =
      s.registry.workers.filter fun w => w.subscriber = id :=
    List.filter_eq_self.2 fun w hw => (List.mem_filter.1 hw).2
  have hlisted : id ∈ (s.only id).registry.ids ↔ id ∈ s.registry.ids := Registry.mem_ids_only_iff id s.registry
  have hposition : (s.only id).positions.load id = s.positions.load id := Positions.load_only_self s.positions id
  have hrunning : (s.only id).registry.isRunning id = s.registry.isRunning id := Registry.isRunning_only hc.registry id
  simp only [view, hhanded, hworkers, hlisted, hposition, hrunning, List.map_map]
  rfl

/-- The actions of a run that a subscriber sees, as they see them. -/
def seen (store codec : Codec) (id : String) : System → List Action → List Action
  | _, [] => []
  | s, a :: rest => (s.seenBy id a).toList ++ seen store codec id (s.step store codec a) rest

/-- What a subscriber is told in a run: the responses to the actions that they see, and what they can ask for then. -/
def told (store codec : Codec) (id : String) : System → List Action → List (Option Response × View)
  | _, [] => []
  | s, a :: rest =>
    let t := s.step store codec a
    ((s.seenBy id a).map fun _ => ((s.response store a).map (.renumber (s.registry.rank id)), t.view id)).toList ++
      told store codec id t rest

/-- The responses of a run, and what a subscriber can ask for then. -/
def responses (store codec : Codec) (id : String) : System → List Action → List (Option Response × View)
  | _, [] => []
  | s, a :: rest =>
    let t := s.step store codec a
    (s.response store a, t.view id) :: responses store codec id t rest

/-- A run looks to a subscriber like one without anybody else. -/
theorem run_alone (hc : s.Coherent) (store codec : Codec) (id : String) (actions : List Action) :
    (actions.foldl (step store codec) s).only id =
        (s.seen store codec id actions).foldl (step store codec) (s.only id) ∧
      s.told store codec id actions = (s.only id).responses store codec id (s.seen store codec id actions) := by
  induction actions generalizing s with
  | nil => exact ⟨rfl, rfl⟩
  | cons a rest ih =>
    obtain ⟨hrun, htold⟩ := ih (hc.step store codec a)
    cases ha : s.seenBy id a with
    | none =>
      have hstep := only_step_of_unseen hc store codec ha
      rw [hstep] at hrun htold
      rw [List.foldl_cons, seen, told, ha]
      exact ⟨hrun, htold⟩
    | some a' =>
      obtain ⟨hstep, hresponse⟩ := only_step_of_seen hc store codec ha
      have hview : ((s.only id).step store codec a').view id = (s.step store codec a).view id := by
        rw [← hstep, view_only (hc.step store codec a)]
      rw [hstep] at hrun htold
      rw [List.foldl_cons, seen, told, ha]
      refine ⟨hrun, ?_⟩
      show _ :: _ = ((s.only id).response store a', _) :: responses store codec id _ _
      rw [hresponse, hview, htold]
      rfl

theorem Coherent.run (hc : s.Coherent) (store codec : Codec) (actions : List Action) :
    (actions.foldl (System.step store codec) s).Coherent := by
  induction actions generalizing s with
  | nil => exact hc
  | cons a rest ih => exact ih (hc.step store codec a)

/-- **Subscribers do not influence each other**: if a subscriber sees the same actions in two runs, then whatever the
other subscribers do and whatever becomes of their workers, the subscriber is told the same. -/
theorem independence {log : EventLog} {ps ps' : Positions} (hps : ps'.load id = ps.load id)
    {actions actions' : List Action}
    (h : (initial log ps').seen store codec id actions' = (initial log ps).seen store codec id actions) :
    (initial log ps').told store codec id actions' = (initial log ps).told store codec id actions ∧
      (actions'.foldl (step store codec) (initial log ps')).view id =
        (actions.foldl (step store codec) (initial log ps)).view id ∧
      (actions'.foldl (step store codec) (initial log ps')).log =
        (actions.foldl (step store codec) (initial log ps)).log := by
  have hc := coherent_initial log ps
  have hc' := coherent_initial log ps'
  have hstart : (initial log ps').only id = (initial log ps).only id :=
    only_ext rfl (Positions.only_eq hps) rfl rfl
  obtain ⟨hrun, htold⟩ := run_alone hc store codec id actions
  obtain ⟨hrun', htold'⟩ := run_alone hc' store codec id actions'
  rw [h, hstart] at hrun' htold'
  have hend := hrun'.trans hrun.symm
  have hlog := congrArg System.log hend
  refine ⟨htold'.trans htold.symm, ?_, hlog⟩
  rw [← view_only (hc'.run store codec actions'), hend, view_only (hc.run store codec actions)]

/-- A subscriber next to one that fails. -/
def beside : List Action :=
  [.subscribe "a" .beginning true, .poll 0, .subscribe "b" .beginning true, .settle 0 (.failure "no") true, .poll 1,
    .settle 1 .success true, .save "a" ⟨.null, 7⟩, .poll 1, .unsubscribe "a", .unsubscribe "b"]

/-- The same subscriber without the other one. -/
def apart : List Action :=
  [.subscribe "b" .beginning true, .poll 0, .settle 0 .success true, .poll 0, .unsubscribe "b"]

theorem independence_beside :
    (Positions.empty.load "b" = Positions.empty.load "b" ∧
        (initial twoNotes .empty).seen notes notes "b" beside = (initial twoNotes .empty).seen notes notes "b" apart) ∧
      (initial twoNotes .empty).told notes notes "b" beside = (initial twoNotes .empty).told notes notes "b" apart ∧
      ((beside.foldl (step notes notes) (initial twoNotes .empty)).handed "b").map (fun h => (h.place, h.mark)) =
        [(0, .saved), (1, .pending)] := by
  have h : (initial twoNotes .empty).seen notes notes "b" beside =
      (initial twoNotes .empty).seen notes notes "b" apart := by rfl
  exact ⟨⟨rfl, h⟩, (independence rfl h).1, by decide⟩

end System

end Chronicle
