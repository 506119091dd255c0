import Chronicle.Proofs.Database.Sessions
import Chronicle.Proofs.Database.Stages
import Chronicle.Proofs.Store.Versions

/-!
# Writers side by side

Any number of stores append to one collection at once, each with the settings it likes (`Race`). How far a writer is can
be told by what it has still to do (`Race.Stage`). One that has inserted something holds the slot behind the last
committed version of its stream, whatever version it was told before (`Race.Sound.held`), since any other slot is taken
or not the one it asks for. `Race.Sound.outcome` says what a step does if that is so up to then: the writer's transaction
holds other documents, or it is committed.
-/

namespace Chronicle.Database

open Codec (Labelled belongsTo)

/-! ## Writers -/

/-- A writer: the settings of its store, and its call. -/
structure Writer where
  config : StoreConfig
  call : AppendCall

namespace Writer

variable {c : Collection} {w : Writer} {current : Option Nat} {r : AppendResult} {batch : List Document}

/-- The store of a writer, in a collection. -/
def store (c : Collection) (w : Writer) : EventStore := ⟨c, w.config⟩

/-- What a writer sends. -/
def dialogue (c : Collection) (w : Writer) : Dialogue (Except StoreError AppendResult) :=
  ((w.store c).append w.call.stream w.call.expected w.call.events).run

/-- The plan of a writer for a version of its stream. -/
def plan (w : Writer) (current : Option Nat) : Except StoreError (AppendResult × List Document) :=
  (Codec.json w.config.times).plan w.call.stream w.call.expected w.call.events current

theorem labelled_of_plan (h : w.plan current = .ok (r, batch)) {i : Nat} {d : Document} (hd : batch[i]? = some d) :
    Labelled w.call.stream (versionAfter current + i) d :=
  Codec.labelled_of_encodeAll (Codec.plan_eq_ok_iff.1 h).2.1 hd

/-- The versions of a result are those of its documents. -/
theorem versions_of_plan (h : w.plan current = .ok (r, batch)) :
    r.versions = List.range' (versionAfter current) batch.length := by
  obtain ⟨-, -, rfl⟩ := Codec.plan_eq_ok_iff.1 h
  exact AppendResult.versions_lastVersion ..

/-- A writer with a stream begins with the question for the stream's version, if its transactions are acknowledged. -/
theorem dialogue_eq (hack : isAcknowledged w.config.transaction = true) (hne : w.call.stream ≠ "") :
    w.dialogue c = .send ((w.store c).versionRequest w.call.stream) fun reply =>
      if reply.settles then
        (w.store c).proceeding w.call.stream w.call.expected w.call.events (versionTold reply)
      else .sendUntil (w.store c).moreRequest Reply.settles fun replies =>
        (w.store c).proceeding w.call.stream w.call.expected w.call.events (versionTold (replies.getLastD {})) := by
  rw [dialogue, EventStore.run_append _ _ _ _ hack hne, EventStore.run_currentVersion, Dialogue.bind]
  refine congrArg (Dialogue.send _) (funext fun reply => ?_)
  split <;> rfl

/-- A writer that succeeded with events in a stream. -/
def win (stream : String) (w : Writer) :
    Dialogue (Except StoreError AppendResult) → Option (AppendCall × AppendResult)
  | .done (.ok r) => if w.call.stream = stream ∧ w.call.events ≠ [] then some (w.call, r) else none
  | _ => none

end Writer

/-- The version that is told if the documents of a stream are numbered. -/
theorem Numbered.exists_versionTold {s : EventStore} {stream : String} {documents kept : List Document}
    {reply : Reply} (h : Numbered stream documents kept) (ha : reply.accepted = .ok ())
    (hans : (s.latest stream).one.Answers documents reply.documents) :
    ∃ current, versionTold reply = .ok current ∧ versionAfter current = kept.length := by
  have hhead : reply.documents.head? = kept.getLast?.map (project (s.latest stream).projection) := by
    rw [h.answers_latest_iff.1 hans, Numbered.head?_latest]
  rw [versionTold, ha, Except.mapError_ok, Except.ok_bind, hhead]
  cases hlast : kept.getLast? with
  | none =>
    rw [List.getLast?_eq_none_iff.1 hlast]
    exact ⟨none, rfl, rfl⟩
  | some d =>
    have hpos : 0 < kept.length := List.length_pos_of_mem (List.mem_of_getLast? hlast)
    rw [List.getLast?_eq_getElem?] at hlast
    refine ⟨some (kept.length - 1), ?_, Nat.sub_add_cancel hpos⟩
    show (streamVersionOf (project (s.latest stream).projection d)).mapError StoreError.decoding = _
    rw [streamVersionOf_project s (h.ordered _ d hlast)]
    rfl

/-! ## Races -/

/-- The server, and what each writer has still to do. -/
structure Race where
  sessions : Sessions
  dialogues : List (Dialogue (Except StoreError AppendResult))

namespace Race

variable {c : Collection} {writers : List Writer} {race race' : Race} {j k : Nat} {w : Writer} {t t' : Sessions}
  {d d' : Dialogue (Except StoreError AppendResult)} {stream : String}

/-- All writers are about to begin, and the collection is empty. -/
def start (c : Collection) (writers : List Writer) : Race := ⟨.empty, writers.map (·.dialogue c)⟩

/-- A request of one writer is answered, or a transaction expires. -/
inductive Step (c : Collection) : Race → Race → Prop
  | move {race : Race} {k : Nat} {d d' : Dialogue (Except StoreError AppendResult)} {t : Sessions} :
    race.dialogues[k]? = some d → d.Moves (Isolates c k) race.sessions t d' →
    Step c race ⟨t, race.dialogues.set k d'⟩
  | expire {race : Race} (k : Nat) : Step c race ⟨race.sessions.hold k none, race.dialogues⟩

/-- A race can come to this. -/
def Reachable (c : Collection) (writers : List Writer) (race : Race) : Prop :=
  Relation.ReflTransGen (Step c) (start c writers) race

/-- The calls that brought events into a stream, with their results. -/
def wins (writers : List Writer) (race : Race) (stream : String) : List (AppendCall × AppendResult) :=
  (writers.zip race.dialogues).filterMap fun x => x.1.win stream x.2

/-! ## How far a writer is -/

/-- What is known of a writer by what it has still to do. -/
inductive Stage (c : Collection) (k : Nat) (w : Writer) (t : Sessions) :
    Dialogue (Except StoreError AppendResult) → Prop
  | waiting : isAcknowledged w.config.transaction = true → w.call.stream ≠ "" →
    (∀ documents, (k, documents) ∉ t.commits) → Stage c k w t (w.dialogue c)
  | storing {current : Option Nat} {r : AppendResult} {stored rest : List Document} :
    w.plan current = .ok (r, stored ++ rest) → versionAfter current ≤ t.count w.call.stream →
    (∀ writes, t.pending k = some writes → List.Forall₂ Keyed stored writes) →
    (∀ documents, (k, documents) ∉ t.commits) →
    Stage c k w t ((w.store c).storing w.call.stream w.call.expected r rest)
  | aborting {e : StoreError} : (∀ documents, (k, documents) ∉ t.commits) → Stage c k w t ((w.store c).aborting e)
  | failed {e : StoreError} : (∀ documents, (k, documents) ∉ t.commits) → Stage c k w t (.done (.error e))
  | succeeded {current : Option Nat} {r : AppendResult} {batch documents : List Document} :
    w.plan current = .ok (r, batch) → List.Forall₂ Keyed batch documents → (k, documents) ∈ t.commits →
    Stage c k w t (.done (.ok r))

theorem Stage.mono (h : Stage c k w t d)
    (hcommits : ∀ documents, (k, documents) ∈ t'.commits ↔ (k, documents) ∈ t.commits)
    (hcount : t.count w.call.stream ≤ t'.count w.call.stream)
    (hpending : ∀ writes, t'.pending k = some writes → t.pending k = some writes) : Stage c k w t' d := by
  have hnone (hn : ∀ documents, (k, documents) ∉ t.commits) : ∀ documents, (k, documents) ∉ t'.commits :=
    fun documents hm => hn documents ((hcommits documents).1 hm)
  cases h with
  | waiting hack hne hn => exact .waiting hack hne (hnone hn)
  | storing hplan hle hstored hn =>
    exact .storing hplan (Nat.le_trans hle hcount) (fun writes hw => hstored writes (hpending writes hw)) (hnone hn)
  | aborting hn => exact .aborting (hnone hn)
  | failed hn => exact .failed (hnone hn)
  | succeeded hplan hkeyed hm => exact .succeeded hplan hkeyed ((hcommits _).2 hm)

/-- A writer that has succeeded is committed. -/
theorem Stage.exists_of_ok {r : AppendResult} (h : Stage c k w t (.done (.ok r))) :
    ∃ current batch documents, w.plan current = .ok (r, batch) ∧ List.Forall₂ Keyed batch documents ∧
      (k, documents) ∈ t.commits := by
  generalize hd : (Dialogue.done (Except.ok r) : Dialogue (Except StoreError AppendResult)) = d at h
  cases h with
  | waiting hack hne _ =>
    rw [Writer.dialogue_eq hack hne] at hd
    cases hd
  | @storing _ _ _ rest _ _ _ _ =>
    cases rest with
    | nil =>
      rw [EventStore.storing_nil] at hd
      cases hd
    | cons d rest =>
      rw [EventStore.storing_cons] at hd
      cases hd
  | aborting _ => cases hd
  | failed _ => cases hd
  | succeeded hplan hkeyed hm =>
    cases hd
    exact ⟨_, _, _, hplan, hkeyed, hm⟩

/-! ## The invariant -/

/-- What is inserted in a transaction lies behind the committed documents of its stream, and no slot is taken twice.
-/
structure Sound (c : Collection) (writers : List Writer) (race : Race) : Prop where
  length : race.dialogues.length = writers.length
  stage : ∀ k w d, writers[k]? = some w → race.dialogues[k]? = some d → Stage c k w race.sessions d
  ordered : ∀ stream, Ordered stream (race.sessions.documentsOf stream)
  held : ∀ k writes, race.sessions.pending k = some writes → ∃ w, writers[k]? = some w ∧
    ∀ i d, writes[i]? = some d → Labelled w.call.stream (race.sessions.count w.call.stream + i) d
  apart : ∀ j k, j ≠ k → ∀ writes writes', race.sessions.pending j = some writes →
    race.sessions.pending k = some writes' → ∀ d ∈ writes, ∀ d' ∈ writes', ¬SameSlot d d'
  tile : ∀ stream,
    ((race.wins writers stream).flatMap fun a => a.2.versions).Perm (List.range (race.sessions.count stream))
  once : (race.sessions.commits.map Prod.fst).Nodup
  owners : ∀ x ∈ race.sessions.commits, x.1 < writers.length

theorem dialogue_of_not (h : ¬(isAcknowledged w.config.transaction = true ∧ w.call.stream ≠ "")) :
    ∃ e, w.dialogue c = .done (.error e) := by
  by_cases hne : w.call.stream = ""
  · refine ⟨.emptyStreamId, ?_⟩
    rw [Writer.dialogue, EventStore.append, (EventLog.checkStreamId_eq_error_iff).2 ⟨hne, rfl⟩]
    rfl
  · have hack : isAcknowledged w.config.transaction = false := by
      cases hack : isAcknowledged w.config.transaction with
      | false => rfl
      | true => exact absurd ⟨hack, hne⟩ h
    exact ⟨_, EventStore.run_append_of_not_acknowledged (w.store c) _ _ _ hack hne⟩

theorem win_dialogue (c : Collection) (w : Writer) (stream : String) : w.win stream (w.dialogue c) = none := by
  by_cases h : isAcknowledged w.config.transaction = true ∧ w.call.stream ≠ ""
  · rw [Writer.dialogue_eq h.1 h.2]
    rfl
  · obtain ⟨e, he⟩ := dialogue_of_not (c := c) h
    rw [he]
    rfl

theorem sound_start (c : Collection) (writers : List Writer) : Sound c writers (start c writers) := by
  have hwins : ∀ stream, (start c writers).wins writers stream = [] := by
    intro stream
    rw [wins, start, List.filterMap_eq_nil_iff]
    rintro ⟨w, d⟩ hx
    obtain ⟨i, hi⟩ := List.mem_iff_getElem?.1 hx
    obtain ⟨hw, hd⟩ := List.getElem?_zip_eq_some.1 hi
    rw [List.getElem?_map, hw, Option.map_some, Option.some.injEq] at hd
    exact hd ▸ win_dialogue c w stream
  constructor
  case length => exact List.length_map _
  case stage =>
    intro k w d hw hd
    rw [start, List.getElem?_map, hw, Option.map_some, Option.some.injEq] at hd
    subst hd
    have hn : ∀ documents, (k, documents) ∉ (start c writers).sessions.commits := fun _ hm => by cases hm
    by_cases h : isAcknowledged w.config.transaction = true ∧ w.call.stream ≠ ""
    · exact .waiting h.1 h.2 hn
    · obtain ⟨e, he⟩ := dialogue_of_not (c := c) h
      rw [he]
      exact .failed hn
  case ordered => exact fun stream i d hd => by cases hd
  case held => exact fun k writes hw => by cases hw
  case apart => exact fun j k _ writes writes' hw => by cases hw
  case tile =>
    intro stream
    rw [hwins]
    exact .refl _
  case once => exact .nil
  case owners => exact fun x hx => by cases hx

/-! ## What a step does -/

/-- What a step of a writer does: its transaction holds other documents than before, or it is committed and the writer
succeeds. -/
inductive Outcome (c : Collection) (k : Nat) (w : Writer) (t : Sessions) :
    Sessions → Dialogue (Except StoreError AppendResult) → Prop
  | holds {held : Option (List Document)} {d' : Dialogue (Except StoreError AppendResult)} :
    (∀ writes, held = some writes →
      (∀ i d, writes[i]? = some d → Labelled w.call.stream (t.count w.call.stream + i) d) ∧
        ∀ j writes', j ≠ k → t.pending j = some writes' → ∀ d ∈ writes, ∀ d' ∈ writes', ¬SameSlot d d') →
    (∀ documents, (k, documents) ∉ t.commits) → Stage c k w (t.hold k held) d' → Outcome c k w t (t.hold k held) d'
  | commits {writes batch : List Document} {current : Option Nat} {r : AppendResult} :
    (∀ documents, (k, documents) ∉ t.commits) → t.pending k = some writes → w.plan current = .ok (r, batch) →
    List.Forall₂ Keyed batch writes → versionAfter current ≤ t.count w.call.stream →
    Outcome c k w t (t.commit k writes) (.done (.ok r))

namespace Sound

variable {current : Option Nat} {r : AppendResult} {writes stored rest documents : List Document} {reply : Reply}

/-- What was committed up to some moment is numbered like what is committed now. -/
theorem numbered (h : Sound c writers race) (stream : String) (moment : Nat) :
    ∃ kept, Numbered stream ((race.sessions.commits.take moment).flatMap Prod.snd) kept ∧
      kept.length ≤ race.sessions.count stream := by
  obtain ⟨later, hlater⟩ : ((race.sessions.commits.take moment).flatMap Prod.snd).filter (belongsTo stream) <+:
      race.sessions.documentsOf stream := by
    refine List.IsPrefix.filter _ ⟨(race.sessions.commits.drop moment).flatMap Prod.snd, ?_⟩
    rw [← List.flatMap_append, List.take_append_drop, Sessions.documents]
  refine ⟨_, ⟨fun i d hd => h.ordered stream i d ?_, .refl _⟩, ?_⟩
  · rw [← hlater, List.getElem?_append_left (List.getElem?_eq_some_iff.1 hd).1, hd]
  · rw [Sessions.count, ← hlater, List.length_append]
    exact Nat.le_add_right _ _

/-- What a transaction holds lies behind the committed documents, and apart from what the others hold. -/
theorem held_apart (h : Sound c writers race) (hw : writers[k]? = some w) :
    ∀ writes, race.sessions.pending k = some writes →
      (∀ i d, writes[i]? = some d → Labelled w.call.stream (race.sessions.count w.call.stream + i) d) ∧
        ∀ j writes', j ≠ k → race.sessions.pending j = some writes' →
          ∀ d ∈ writes, ∀ d' ∈ writes', ¬SameSlot d d' := by
  intro writes hp
  obtain ⟨w', hw', hl⟩ := h.held k writes hp
  rw [hw] at hw'
  cases hw'
  exact ⟨hl, fun j writes' hj hp' => h.apart k j hj.symm writes writes' hp hp'⟩

/-- A step that leaves the server as it is. -/
theorem outcome_same (h : Sound c writers race) (hw : writers[k]? = some w)
    (hn : ∀ documents, (k, documents) ∉ race.sessions.commits) (hstage : Stage c k w race.sessions d') :
    Outcome c k w race.sessions race.sessions d' := by
  have hsame : race.sessions.hold k (race.sessions.pending k) = race.sessions := by
    rw [Sessions.hold, Function.update_eq_self]
  have ho : Outcome c k w race.sessions (race.sessions.hold k (race.sessions.pending k)) d' :=
    .holds (h.held_apart hw) hn (hsame.symm ▸ hstage)
  rwa [hsame] at ho

/-- A step that drops the transaction. -/
theorem outcome_none (hn : ∀ documents, (k, documents) ∉ t.commits) (hstage : Stage c k w (t.hold k none) d') :
    Outcome c k w t (t.hold k none) d' :=
  .holds (fun _ hw => by cases hw) hn hstage

/-- A writer that was told a version stores its documents, or gives up. -/
theorem outcome_told (hle : versionAfter current ≤ t.count w.call.stream)
    (hn : ∀ documents, (k, documents) ∉ t.commits) :
    Outcome c k w t (t.hold k (some []))
      ((w.store c).proceeding w.call.stream w.call.expected w.call.events (.ok current)) := by
  refine .holds (fun writes hw => ?_) hn ?_
  · cases hw
    constructor
    · intro i d hd
      cases hd
    · intro j writes' _ _ d hd
      cases hd
  · rw [EventStore.proceeding, Except.ok_bind]
    cases hplan : (w.store c).codec.plan w.call.stream w.call.expected w.call.events current with
    | error e => exact .aborting hn
    | ok p =>
      have hplan : w.plan current = .ok (p.1, [] ++ p.2) := hplan
      refine .storing hplan hle (fun writes hw => ?_) hn
      rw [Sessions.pending_hold_self] at hw
      cases hw
      exact .nil

theorem outcome_waiting (h : Sound c writers race) (hw : writers[k]? = some w)
    (hack : isAcknowledged w.config.transaction = true) (hne : w.call.stream ≠ "")
    (hn : ∀ documents, (k, documents) ∉ race.sessions.commits)
    (hm : (w.dialogue c).Moves (Isolates c k) race.sessions t d') : Outcome c k w race.sessions t d' := by
  rw [Writer.dialogue_eq hack hne] at hm
  cases hm with
  | @send _ _ _ reply hs =>
    beta_reduce
    cases hs with
    | find hc ha hmore hans =>
      have hset : reply.settles = true := by
        rw [Reply.settles_of_accepted ha, hmore rfl]
        exact Bool.or_true _
      obtain ⟨kept, hnumbered, hle⟩ := h.numbered w.call.stream _
      obtain ⟨current, htold, hafter⟩ := hnumbered.exists_versionTold ha hans
      rw [if_pos hset, htold]
      exact outcome_told (hafter ▸ hle) hn
    | refuse hr =>
      obtain ⟨e, he⟩ := hr
      have htold : versionTold reply = .error (.database e) := by
        rw [versionTold, he]
        rfl
      rw [if_pos (Reply.settles_of_refused he), htold]
      exact h.outcome_same hw hn (.aborting hn)

/-- Copies of the first documents of a plan have their labels. -/
theorem labelled_of_keyed {batch documents : List Document} (hplan : w.plan current = .ok (r, batch))
    (hinitial : documents <+: batch) (hkeyed : List.Forall₂ Keyed documents writes) {i : Nat} {d : Document}
    (hd : writes[i]? = some d) : Labelled w.call.stream (versionAfter current + i) d := by
  obtain ⟨hi, rfl⟩ := List.getElem?_eq_some_iff.1 hd
  have hi' : i < documents.length := hkeyed.length_eq ▸ hi
  obtain ⟨later, rfl⟩ := hinitial
  refine (hkeyed.get hi' hi).labelled (Writer.labelled_of_plan hplan ?_)
  rw [List.getElem?_append_left hi']
  exact List.getElem?_eq_getElem hi'

/-- A writer that holds documents, or can insert some, was told the version that its stream still has. -/
theorem versionAfter_eq_count (h : Sound c writers race) (hw : writers[k]? = some w)
    (hp : race.sessions.pending k = some writes) (hle : versionAfter current ≤ race.sessions.count w.call.stream)
    (hl : ∀ i d, (writes ++ stored)[i]? = some d → Labelled w.call.stream (versionAfter current + i) d)
    (hfree : ∀ d ∈ stored, race.sessions.Free k d) (hne : writes ++ stored ≠ []) :
    versionAfter current = race.sessions.count w.call.stream := by
  cases writes with
  | cons d writes =>
    have hheld := (h.held_apart hw _ hp).1 0 d rfl
    exact ((hl 0 d rfl).unique hheld).2
  | nil =>
    obtain ⟨d, stored, rfl⟩ := List.exists_cons_of_ne_nil hne
    by_contra hcount
    -- otherwise the slot of the first document is that of a committed one
    have hlt := Nat.lt_of_le_of_ne hle hcount
    have hcommitted := (h.ordered w.call.stream).getElem hlt
    have hmem := List.mem_of_mem_filter (List.getElem_mem hlt)
    exact (hfree d List.mem_cons_self).1 _ hmem ((sameSlot_iff (hl 0 d rfl) hcommitted).2 ⟨rfl, rfl⟩)

/-- A writer that has stored more documents of its plan goes on with the others. -/
theorem outcome_stored (h : Sound c writers race) (hw : writers[k]? = some w)
    (hplan : w.plan current = .ok (r, documents ++ rest))
    (hle : versionAfter current ≤ race.sessions.count w.call.stream)
    (hp : race.sessions.pending k = some writes) (hkeyed : List.Forall₂ Keyed documents (writes ++ stored))
    (hfree : ∀ d ∈ stored, race.sessions.Free k d) (hne : documents ≠ [])
    (hn : ∀ documents, (k, documents) ∉ race.sessions.commits) :
    Outcome c k w race.sessions (race.sessions.hold k (some (writes ++ stored)))
      ((w.store c).storing w.call.stream w.call.expected r rest) := by
  have hl : ∀ i d, (writes ++ stored)[i]? = some d → Labelled w.call.stream (versionAfter current + i) d :=
    fun i d hd => labelled_of_keyed hplan (List.prefix_append _ _) hkeyed hd
  have hne : writes ++ stored ≠ [] := by
    rw [← List.length_pos_iff, ← hkeyed.length_eq]
    exact List.length_pos_iff.2 hne
  have hcount := h.versionAfter_eq_count hw hp hle hl hfree hne
  refine .holds (fun writes' hw' => ?_) hn (.storing hplan hle (fun writes' hw' => ?_) hn)
  · cases hw'
    refine ⟨hcount ▸ hl, fun j writes' hj hp' d hd d' hd' => ?_⟩
    rcases List.mem_append.1 hd with hd | hd
    · exact (h.held_apart hw _ hp).2 j writes' hj hp' d hd d' hd'
    · exact (hfree d hd).2 j writes' hj hp' d' hd'
  · rw [Sessions.pending_hold_self] at hw'
    cases hw'
    exact hkeyed

theorem outcome_storing (h : Sound c writers race) (hw : writers[k]? = some w)
    (hplan : w.plan current = .ok (r, stored ++ rest))
    (hle : versionAfter current ≤ race.sessions.count w.call.stream)
    (hstored : ∀ writes, race.sessions.pending k = some writes → List.Forall₂ Keyed stored writes)
    (hn : ∀ documents, (k, documents) ∉ race.sessions.commits)
    (hm : ((w.store c).storing w.call.stream w.call.expected r rest).Moves (Isolates c k) race.sessions t d') :
    Outcome c k w race.sessions t d' := by
  cases rest with
  | nil =>
    rw [EventStore.storing_nil] at hm
    cases hm with
    | @send _ _ _ reply hs =>
      beta_reduce
      cases hs with
      | commit hp hwritten =>
        rw [List.append_nil] at hplan
        rw [hwritten]
        exact .commits hn hp hplan (hstored _ hp) hle
      | refuse hr =>
        obtain ⟨e, he⟩ := hr
        rw [he]
        exact h.outcome_same hw hn (.failed hn)
  | cons d rest =>
    rw [EventStore.storing_cons] at hm
    cases hm with
    | @last _ _ _ _ reply hs hstop =>
      beta_reduce
      cases hs with
      | @insert _ _ writes new n _ hp hinserted hpos hlen hkeyed hfree =>
        simp only [List.getLastD_cons, List.getLastD_nil, hinserted]
        obtain ⟨n, rfl⟩ := Nat.exists_eq_succ_of_ne_zero (Nat.pos_iff_ne_zero.1 hpos)
        have hall : List.Forall₂ Keyed (stored ++ d :: rest.take n) (writes ++ new) :=
          List.rel_append (hstored _ hp) hkeyed
        have hsplit : stored ++ (d :: rest) = stored ++ d :: rest.take n ++ rest.drop n := by
          rw [List.append_assoc, List.cons_append, List.take_append_drop]
        rw [hsplit] at hplan
        have hne : stored ++ d :: rest.take n ≠ [] := List.append_ne_nil_of_right_ne_nil _ (List.cons_ne_nil _ _)
        exact h.outcome_stored hw hplan hle hp hall hfree hne hn
      | refuse hr =>
        obtain ⟨e, he⟩ := hr
        simp only [List.getLastD_cons, List.getLastD_nil, he]
        exact h.outcome_same hw hn (.aborting hn)
    | @more _ _ _ _ reply hs hstop =>
      have hzero := Reply.inserted_of_not_endsInsert hstop
      cases hs with
      | insert hp hinserted hpos hlen hkeyed hfree =>
        cases hzero.symm.trans hinserted
        exact absurd hpos (Nat.lt_irrefl 0)
      | refuse hr =>
        obtain ⟨e, he⟩ := hr
        cases hzero.symm.trans he

theorem outcome (h : Sound c writers race) (hw : writers[k]? = some w) (hd : race.dialogues[k]? = some d)
    (hm : d.Moves (Isolates c k) race.sessions t d') : Outcome c k w race.sessions t d' := by
  cases h.stage k w d hw hd with
  | waiting hack hne hn => exact h.outcome_waiting hw hack hne hn hm
  | storing hplan hle hstored hn => exact h.outcome_storing hw hplan hle hstored hn hm
  | aborting hn =>
    cases hm with
    | send hs =>
      cases hs with
      | abort => exact outcome_none hn (.failed hn)
      | refuse _ => exact h.outcome_same hw hn (.failed hn)
  | failed _ => cases hm
  | succeeded _ _ _ => cases hm

end Sound

end Race

end Chronicle.Database
