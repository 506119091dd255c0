import Chronicle.Proofs.Feed.Changes
import Chronicle.Proofs.Subscription.Staff
import Chronicle.Proofs.Subscription.Steps

/-!
# At least once, and without gaps

A subscriber that starts at the beginning, and whose position nobody else touches, is handed every event of the log in
order, whatever fails and however often it is started again (`System.delivery`). What carries this over restarts is
that position, journal and workers agree on one place (`System.Positioned`): the one behind the last event whose
position was saved.
-/

namespace Chronicle

/-! ## The place of a subscriber -/

namespace System

/-- A subscriber has come to the place `n`: so say its position, the journal and its workers. -/
structure Positioned (codec : Codec) (id : String) (n : Nat) (s : System) : Prop where
  stored : s.positions.load id = if n = 0 then none else some (EventLog.positionOf (n - 1))
  recorded : Recorded codec s.log n (s.handed id)
  staffed : Staffed id n (s.handed id) s.registry

namespace Positioned

variable {store codec : Codec} {id : String} {n k : Nat} {s s' : System} {w : Worker}

theorem initial (codec : Codec) {log : EventLog} {positions : Positions} (h : positions.load id = none) :
    Positioned codec id 0 (System.initial log positions) where
  stored := h
  recorded := .nil codec log
  staffed := .empty id

/-- The place is in the log, or just behind it. -/
theorem le_size (h : s.Positioned codec id n) : n ≤ s.log.size := by
  refine Nat.le_of_not_lt fun hlt => ?_
  obtain ⟨event, hd⟩ := h.recorded.decodes s.log.size hlt
  exact Nat.lt_irrefl _ hd.lt_size

theorem of_handed {js : List Handover} (hjs : s.handed id = js)
    (hstored : s.positions.load id = if n = 0 then none else some (EventLog.positionOf (n - 1)))
    (hrec : Recorded codec s.log n js) (hst : Staffed id n js s.registry) : s.Positioned codec id n := by
  subst hjs
  exact ⟨hstored, hrec, hst⟩

/-- What others do leaves a subscriber where it is. -/
theorem frame (h : s.Positioned codec id n) (hlog : s.log.documents <+: s'.log.documents)
    (hpos : s'.positions.load id = s.positions.load id) (hjs : s'.handed id = s.handed id)
    (hst : Staffed id n (s.handed id) s'.registry) : s'.Positioned codec id n :=
  .of_handed hjs (hpos.trans h.stored) (h.recorded.mono hlog) hst

/-! ### Steps of clients -/

theorem append (h : s.Positioned codec id n) (call : AppendCall) :
    (s.step store codec (.append call)).Positioned codec id n := by
  rw [step]
  split
  · rename_i r log ha
    exact h.frame (EventLog.prefix_of_append ha) rfl rfl h.staffed
  · exact h

theorem save (h : s.Positioned codec id n) {other : String} (ho : other ≠ id) (p : Position) :
    (s.step store codec (.save other p)).Positioned codec id n :=
  h.frame (List.prefix_refl _) (Positions.load_save_of_ne ho p s.positions) rfl h.staffed

theorem delete (h : s.Positioned codec id n) {other : String} (ho : other ≠ id) :
    (s.step store codec (.delete other)).Positioned codec id n :=
  h.frame (List.prefix_refl _) (Positions.load_delete_of_ne ho s.positions) rfl h.staffed

theorem unsubscribe (h : s.Positioned codec id n) (other : String) :
    (s.step store codec (.unsubscribe other)).Positioned codec id n :=
  h.frame (List.prefix_refl _) rfl rfl (h.staffed.similar (Registry.similar_release other s.registry))

theorem abandon (h : s.Positioned codec id n) : (s.step store codec .abandon).Positioned codec id n :=
  h.frame (List.prefix_refl _) rfl rfl (h.staffed.similar (Registry.similar_abandon s.registry))

/-- The feed of a subscriber is opened at its place. -/
theorem openFeed (h : s.Positioned codec id n) (hsize : s.log.size ≤ 0x10000000000000000) {loads : Bool}
    {saved : Option Position} (hsaved : (load loads id s.positions).1 = .ok saved) {feed : Feed}
    (hfeed : s.log.openFeed (StartAt.beginning.position saved) = .ok feed) : feed = .ofLog n := by
  have hle := h.le_size
  cases loads with
  | false => cases hsaved
  | true =>
    cases hsaved
    rw [h.stored] at hfeed
    by_cases hn : n = 0
    · subst hn
      cases hfeed
      rfl
    · rw [if_neg hn] at hfeed
      have hopen := EventLog.openFeed_after (show n - 1 < 0x10000000000000000 by omega) hfeed
      rw [Nat.sub_add_cancel (Nat.one_le_iff_ne_zero.2 hn)] at hopen
      exact hopen

theorem subscribe (h : s.Positioned codec id n) (hsize : s.log.size ≤ 0x10000000000000000) {other : String}
    {start : StartAt} (loads : Bool)
    (ho : other = id → start = .beginning ∧ ∀ w ∈ s.registry.workers, w.subscriber = id → w.isFinished = true) :
    (s.step store codec (.subscribe other start loads)).Positioned codec id n := by
  obtain ⟨hps, hws⟩ :=
    Registry.subscribe_cases (load loads) (fun p => s.log.openFeed p) other start s.positions s.registry
  have hpos : (s.step store codec (.subscribe other start loads)).positions = s.positions := by
    rcases hps with hps | hps
    · exact hps
    · exact hps
  refine h.frame (List.prefix_refl _) (congrArg _ hpos) rfl ?_
  rcases hws with ⟨-, hws⟩ | ⟨saved, feed, hsaved, hfeed, -, hws⟩
  · exact h.staffed.similar (Registry.similar_of_workers hws)
  · by_cases hid : other = id
    · subst hid
      obtain ⟨rfl, hfin⟩ := ho rfl
      rw [h.openFeed hsize hsaved hfeed] at hws
      exact h.staffed.spawn hfin hws
    · refine h.staffed.frame (fun k w hw => ⟨w, hw.append hws, rfl, rfl⟩) fun k w hw => ?_
      rcases Registry.owns_append hws hw with ⟨-, rfl⟩ | hw'
      · exact absurd hw.2 hid
      · exact ⟨w, hw', rfl, rfl⟩

/-! ### Steps of workers -/

theorem handover_of_ne {w : Worker} (hw : w.subscriber ≠ id) (k : Nat) (w' : Worker) :
    (handover k w w').filter (fun h => h.subscriber = id) = [] := by
  unfold handover
  split
  · exact List.filter_cons_of_neg (by simpa using hw)
  · rfl

/-- A worker of another subscriber goes to its next event. -/
theorem poll_of_ne (h : s.Positioned codec id n) (hk : s.registry.workers[k]? = some w) (hw : w.subscriber ≠ id) :
    (s.step store codec (.poll k)).Positioned codec id n := by
  have ho (j : Nat) (v : Worker) := Registry.owns_update_of_ne (j := j) (w := v) hk hw
    (Worker.subscriber_poll codec s.log w)
  rw [step_poll hk]
  refine h.frame (List.prefix_refl _) rfl ?_ ?_
  · show (s.journal ++ _).filter _ = s.journal.filter _
    rw [List.filter_append, handover_of_ne hw, List.append_nil]
  · exact h.staffed.frame (fun j v hv => ⟨v, (ho j v).2 hv, rfl, rfl⟩) fun j v hv => ⟨v, (ho j v).1 hv, rfl, rfl⟩

/-- A worker that hands nothing over leaves its subscriber where it is. -/
theorem poll_quiet (h : s.Positioned codec id n) (hk : s.registry.workers[k]? = some w)
    (hno : handover k w (w.poll codec s.log) = [])
    (hst : Staffed id n (s.handed id) (s.registry.update k fun _ => w.poll codec s.log)) :
    (s.step store codec (.poll k)).Positioned codec id n := by
  rw [step_poll hk, hno, List.append_nil]
  exact h.frame (List.prefix_refl _) rfl rfl hst

/-- A worker of the subscriber goes to its next event, which is the one at the place. -/
theorem poll_own (h : s.Positioned codec id n) (hk : s.registry.Owns id k w) :
    (s.step store codec (.poll k)).Positioned codec id n := by
  have hsub : (w.poll codec s.log).subscriber = id := (Worker.subscriber_poll codec s.log w).trans hk.2
  by_cases hi : w.stage = .idle
  · obtain ⟨hfeed, hlast⟩ := h.staffed.idle k w hk hi
    rcases Worker.poll_cases codec s.log hi hfeed with hw | ⟨outcome, hw⟩ | ⟨d, event, hd, he, hst, hfeed'⟩
    · -- it waits
      refine h.poll_quiet hk.1 (handover_eq_nil (.inr fun event position hs => ?_) k) ?_
      · rw [hw, hi] at hs
        cases hs
      · exact h.staffed.similar (Registry.similar_update hk.1 (by rw [hw]))
    · -- it finishes
      refine h.poll_quiet hk.1 (handover_eq_nil (.inr fun event position hs => ?_) k) ?_
      · rw [hw] at hs
        cases hs
      · exact h.staffed.finish hk hi hsub hw
    · -- it hands the event over
      have hover : handover k w (w.poll codec s.log) = [⟨id, k, n, event, .pending⟩] := by
        rw [handover, hi, hst, hk.2]
        rfl
      have hjs : (s.journal ++ [(⟨id, k, n, event, .pending⟩ : Handover)]).filter (fun h => h.subscriber = id) =
          s.handed id ++ [⟨id, k, n, event, .pending⟩] := by
        rw [List.filter_append, List.filter_cons_of_pos (by simp)]
        rfl
      rw [step_poll hk.1, hover]
      refine .of_handed hjs h.stored ?_ ?_
      · exact h.recorded.push rfl rfl ⟨d, hd, he⟩ hlast
      · exact h.staffed.push hk hi hsub hst hfeed' rfl rfl
  · have hw := Worker.poll_of_ne_idle codec s.log hi
    refine h.poll_quiet hk.1 (handover_eq_nil (.inl hi) k) ?_
    exact h.staffed.similar (Registry.similar_update hk.1 (by rw [hw]))

theorem poll (h : s.Positioned codec id n) (k : Nat) : (s.step store codec (.poll k)).Positioned codec id n := by
  cases hk : s.registry.workers[k]? with
  | none =>
    simp only [step, hk]
    exact h
  | some w =>
    by_cases hw : w.subscriber = id
    · exact h.poll_own ⟨hk, hw⟩
    · exact h.poll_of_ne hk hw

section

variable {event : StreamEvent} {position : Position}

/-- The answer to a worker of another subscriber. -/
theorem settle_of_ne (h : s.Positioned codec id n) (hk : s.registry.workers[k]? = some w) (hw : w.subscriber ≠ id)
    (hst : w.stage = .handling event position) (verdict : Verdict) (saves : Bool) :
    (s.step store codec (.settle k verdict saves)).Positioned codec id n := by
  have ho (j : Nat) (v : Worker) := Registry.owns_update_of_ne (j := j) (w := v) hk hw
    (Worker.subscriber_settle (System.save saves) verdict s.positions w)
  rw [step_settle hk hst]
  refine h.frame (List.prefix_refl _) ?_ ?_ ?_
  · rcases settle_cases hst verdict saves s.positions with ⟨-, he⟩ | ⟨-, outcome, he⟩
    · rw [he]
      exact Positions.load_save_of_ne hw position s.positions
    · rw [he]
  · refine (filter_answer _ _ _ fun _ _ => rfl).trans (answer_of_forall (fun x hx hc => ?_) _)
    obtain ⟨v, hv, hid⟩ := h.staffed.owner x hx
    rw [hc.1, hk] at hv
    cases hv
    exact hw hid
  · exact h.staffed.frame (fun j v hv => ⟨v, (ho j v).2 hv, rfl, rfl⟩) fun j v hv => ⟨v, (ho j v).1 hv, rfl, rfl⟩

/-- An answer goes to the last event of the subscriber's journal. -/
theorem handed_answer (h : s.Positioned codec id n) {init : List Handover} {b : Handover}
    (hjs : s.handed id = init ++ [b]) (hk : b.worker = k) (hb : b.mark = .pending) (m : Mark) :
    (answer k m s.journal).filter (fun h => h.subscriber = id) = init ++ [{ b with mark := m }] := by
  have hsettled := h.recorded.settled
  rw [hjs, List.dropLast_concat] at hsettled
  rw [filter_answer k m s.journal fun _ _ => rfl, ← handed, hjs, answer_concat hsettled hk hb]

/-- A position that was stored on the way is below the place. -/
theorem sequence_le (h : s.Positioned codec id n) {p : Position} (hp : s.positions.load id = some p) :
    p.sequence ≤ n := by
  rw [h.stored] at hp
  split at hp
  · cases hp
  · cases hp
    exact Nat.sub_le n 1

/-- The answer to the subscriber's worker: if the event is saved, the place moves on. -/
theorem settle_own (h : s.Positioned codec id n) (hk : s.registry.Owns id k w)
    (hst : w.stage = .handling event position) (verdict : Verdict) (saves : Bool) :
    ∃ n', (s.step store codec (.settle k verdict saves)).Positioned codec id n' := by
  obtain ⟨hfeed, rfl, b, hb, hbk, hbm⟩ := h.staffed.handling k w event position hk hst
  obtain ⟨init, hinit⟩ := List.getLast?_eq_some_iff.1 hb
  have hrec : Recorded codec s.log n (init ++ [b]) := hinit ▸ h.recorded
  have hstaff : Staffed id n (init ++ [b]) s.registry := hinit ▸ h.staffed
  have hjs := h.handed_answer hinit hbk hbm (markOf verdict saves)
  have hanswer := hrec.answer hbm (markOf verdict saves)
  have hfin : w.isFinished = false := by rw [Worker.isFinished, hst]
  have hm := markOf_ne_pending verdict saves
  rw [step_settle hk.1 hst]
  rcases settle_cases hst verdict saves s.positions with ⟨hsaved, he⟩ | ⟨hsaved, outcome, he⟩
  · rw [if_pos hsaved] at hanswer
    rw [he]
    refine ⟨n + 1, .of_handed hjs ?_ hanswer ?_⟩
    · rw [if_neg (Nat.succ_ne_zero n), Nat.add_sub_cancel, ← hk.2]
      exact Positions.load_save fun q hq => h.sequence_le (hk.2 ▸ hq)
    · refine hstaff.answer hk hfin ?_ hbk hm (fun _ => ⟨hfeed, hsaved⟩) fun event position hs => ?_
      · exact hk.2
      · cases hs
  · rw [if_neg hsaved] at hanswer
    rw [he]
    refine ⟨n, .of_handed hjs h.stored hanswer ?_⟩
    refine hstaff.answer hk hfin ?_ hbk hm (fun hs => ?_) fun event position hs => ?_
    · exact hk.2
    · cases hs
    · cases hs

end

theorem settle (h : s.Positioned codec id n) (k : Nat) (verdict : Verdict) (saves : Bool) :
    ∃ n', (s.step store codec (.settle k verdict saves)).Positioned codec id n' := by
  cases hk : s.registry.workers[k]? with
  | none =>
    simp only [step, hk]
    exact ⟨n, h⟩
  | some w =>
    cases hst : w.stage with
    | handling event position =>
      by_cases hw : w.subscriber = id
      · exact h.settle_own ⟨hk, hw⟩ hst verdict saves
      · exact ⟨n, h.settle_of_ne hk hw hst verdict saves⟩
    | _ =>
      rw [step_settle_of_ne hk fun event position hs => by rw [hst] at hs; cases hs]
      exact ⟨n, h⟩

end Positioned

/-! ## Every order of steps -/

section

variable {store codec : Codec} {id : String} {s : System}

theorem size_le_step (store codec : Codec) (s : System) (a : Action) :
    s.log.size ≤ (s.step store codec a).log.size :=
  (prefix_step store codec s a).length_le

/-- Each step leaves the subscriber at its place, or moves it on. -/
theorem Positioned.step {n : Nat} (h : s.Positioned codec id n) {a : Action} (ha : Undisturbed id s a)
    (hsize : s.log.size ≤ 0x10000000000000000) : ∃ n', (s.step store codec a).Positioned codec id n' := by
  cases a with
  | append call => exact ⟨n, h.append call⟩
  | save other p => exact ⟨n, h.save ha p⟩
  | delete other => exact ⟨n, h.delete ha⟩
  | subscribe other start loads => exact ⟨n, h.subscribe hsize loads ha⟩
  | unsubscribe other => exact ⟨n, h.unsubscribe other⟩
  | abandon => exact ⟨n, h.abandon⟩
  | poll k => exact ⟨n, h.poll k⟩
  | settle k verdict saves => exact h.settle k verdict saves

theorem exists_positioned {log : EventLog} {positions : Positions} (h : positions.load id = none)
    (hr : Reachable store codec (Undisturbed id) (initial log positions) s)
    (hsize : s.log.size ≤ 0x10000000000000000) : ∃ n, s.Positioned codec id n := by
  induction hr with
  | first => exact ⟨0, .initial codec h⟩
  | step a _ ha ih =>
    have hle := Nat.le_trans (size_le_step store codec _ a) hsize
    obtain ⟨n, hn⟩ := ih hle
    exact hn.step ha hle

/-- What a subscriber can rely on. -/
structure AtLeastOnce (codec : Codec) (id : String) (s : System) : Prop where
  /-- The first event that is handed over is the first of the log. -/
  first : ∀ h ∈ (s.handed id).head?, h.place = 0
  /-- Each further one is the next, if the one before was saved, and else the same one again after a restart. -/
  follows : (s.handed id).IsChain Follows
  /-- What is handed over is the decoded document at its place. -/
  decoded : ∀ h ∈ s.handed id, s.log.Decodes codec h.place h.event
  /-- Nothing is handed over behind a document that is not decoded. -/
  blocked : ∀ h ∈ s.handed id, ∀ place < h.place, ∃ event, s.log.Decodes codec place event
  /-- Without a stored position no event has been saved. -/
  unsaved : s.positions.load id = none → ∀ h ∈ s.handed id, h.mark ≠ .saved
  /-- A stored position is the one of the greatest place that was handled and saved. -/
  stored : ∀ p, s.positions.load id = some p → p = EventLog.positionOf p.sequence ∧
    (∃ h ∈ s.handed id, h.mark = .saved ∧ h.place = p.sequence) ∧
    ∀ h ∈ s.handed id, (h.mark = .saved → h.place ≤ p.sequence) ∧ h.place ≤ p.sequence + 1

/-- **Delivery**: whatever is appended, whatever handlers answer, saves fail, and workers are stopped, a subscriber
that starts at the beginning and is started again only when its worker has finished gets every event in order, at
least once. The places of a log are numbered with 64 bits. -/
theorem delivery {log : EventLog} {positions : Positions} (h : positions.load id = none)
    (hr : Reachable store codec (Undisturbed id) (initial log positions) s)
    (hsize : s.log.size ≤ 0x10000000000000000) : s.AtLeastOnce codec id := by
  obtain ⟨n, hn⟩ := exists_positioned h hr hsize
  have hrec := hn.recorded
  refine ⟨hrec.head, hrec.chain, hrec.decoded, ?_, ?_, ?_⟩
  · intro x hx place hp
    exact hrec.decodes place (Nat.lt_of_lt_of_le hp (hrec.place_le x hx))
  · intro hnone x hx hs
    rw [hn.stored] at hnone
    split at hnone
    · rename_i h0
      exact absurd (hrec.saved_lt x hx hs) (h0 ▸ Nat.not_lt_zero _)
    · cases hnone
  · intro p hp
    rw [hn.stored] at hp
    split at hp
    · cases hp
    · rename_i h0
      cases hp
      have hpos : 0 < n := Nat.pos_of_ne_zero h0
      refine ⟨rfl, ?_, fun x hx => ⟨fun hs => ?_, ?_⟩⟩
      · obtain ⟨x, hx, hs, hxn⟩ := hrec.exists_saved hpos
        exact ⟨x, hx, hs, Nat.eq_sub_of_add_eq hxn⟩
      · exact Nat.le_sub_one_of_lt (hrec.saved_lt x hx hs)
      · exact Nat.le_trans (hrec.place_le x hx) (Nat.le_of_eq (Nat.sub_add_cancel hpos).symm)

end

/-! A restart after a save that failed. -/

/-- An event without parts of its own. -/
def note : Event := ⟨"1", "/", "note", none, none, none, none, .empty⟩

/-- A codec whose texts all stand for one event. -/
def notes : Codec := ⟨⟨fun _ => .ok .empty, fun _ => .ok note⟩, .rfc3339String⟩

/-- A log of two events. -/
def twoNotes : EventLog :=
  ⟨[[(streamIdField, .string "s"), (streamVersionField, .int64 0)],
    [(streamIdField, .string "s"), (streamVersionField, .int64 1)]], .empty⟩

/-- The second event's position is not saved, and a second worker gets it again. -/
def restart : List Action :=
  [.subscribe "a" .beginning true, .poll 0, .settle 0 .success true, .poll 0, .settle 0 .success false,
    .subscribe "a" .beginning true, .poll 1]

/-- The state after the restart. -/
def restarted : System := restart.foldl (step notes notes) (initial twoNotes .empty)

theorem reachable_restarted : Reachable notes notes (Undisturbed "a") (initial twoNotes .empty) restarted := by
  have h0 : Reachable notes notes (Undisturbed "a") (initial twoNotes .empty) (initial twoNotes .empty) := .first
  have h1 := h0.step (.subscribe "a" .beginning true) fun _ => ⟨rfl, by decide⟩
  have h4 := ((h1.step (.poll 0) trivial).step (.settle 0 .success true) trivial).step (.poll 0) trivial
  have h5 := h4.step (.settle 0 .success false) trivial
  have h6 := h5.step (.subscribe "a" .beginning true) fun _ => ⟨rfl, by decide⟩
  exact h6.step (.poll 1) trivial

theorem delivery_restarted :
    (Positions.empty.load "a" = none ∧
        Reachable notes notes (Undisturbed "a") (initial twoNotes .empty) restarted ∧
        restarted.log.size ≤ 0x10000000000000000) ∧
      restarted.AtLeastOnce notes "a" ∧
      (restarted.handed "a").map (fun h => (h.worker, h.place, h.mark)) =
        [(0, 0, .saved), (0, 1, .unsaved), (1, 1, .pending)] := by
  have hsize : restarted.log.size ≤ 0x10000000000000000 := by decide
  exact ⟨⟨rfl, reachable_restarted, hsize⟩, delivery rfl reachable_restarted hsize, by decide⟩

end System

end Chronicle
