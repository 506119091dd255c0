import Chronicle.Proofs.Database.Writers

/-!
# Races between writers

While a writer holds the slot behind the last committed version of its stream, no other writer of this stream can insert
anything. So the versions that are given lie one behind the other, however the requests of the writers come in between
each other, and only one of those that expect the same version brings events in (`Race.writers_serial`).
-/

namespace Chronicle.Database

open Codec (Labelled belongsTo)

namespace Race

variable {c : Collection} {writers : List Writer} {race race' : Race} {j k : Nat} {w : Writer} {t t' : Sessions}
  {d d' : Dialogue (Except StoreError AppendResult)} {stream : String}

/-! ## Every step keeps the invariant -/

/-- A writer whose documents are not committed has not succeeded. -/
theorem Stage.win_eq_none (h : Stage c k w t d) (hn : ∀ documents, (k, documents) ∉ t.commits) (stream : String) :
    w.win stream d = none := by
  cases h with
  | waiting _ _ _ => exact win_dialogue c w stream
  | @storing _ _ _ rest _ _ _ _ =>
    cases rest with
    | nil =>
      rw [EventStore.storing_nil]
      rfl
    | cons d rest =>
      rw [EventStore.storing_cons]
      rfl
  | aborting _ => rfl
  | failed _ => rfl
  | succeeded _ _ hm => exact absurd hm (hn _)

theorem filterMap_zip_set {α β γ : Type} {f : α × β → Option γ} {xs : List α} {ys : List β} {k : Nat} {a : α}
    {b b' : β} (ha : xs[k]? = some a) (hb : ys[k]? = some b) (hf : f (a, b) = none) :
    ((xs.zip (ys.set k b')).filterMap f).Perm ((f (a, b')).toList ++ (xs.zip ys).filterMap f) := by
  induction xs generalizing ys k with
  | nil => cases ha
  | cons x xs ih =>
    cases ys with
    | nil => cases hb
    | cons y ys =>
      cases k with
      | zero =>
        cases ha
        cases hb
        rw [List.set_cons_zero, List.zip_cons_cons, List.zip_cons_cons, List.filterMap_cons_none hf,
          List.filterMap_cons]
        cases f (a, b') <;> exact .refl _
      | succ k =>
        rw [List.set_cons_succ, List.zip_cons_cons, List.zip_cons_cons, List.filterMap_cons, List.filterMap_cons]
        cases f (x, y) with
        | none => exact ih ha hb
        | some z => exact ((ih ha hb).cons z).trans List.perm_middle.symm

/-- What a writer wins comes to what the others have won. -/
theorem wins_set (hw : writers[k]? = some w) (hd : race.dialogues[k]? = some d) (hnone : w.win stream d = none)
    (d' : Dialogue (Except StoreError AppendResult)) (t : Sessions) :
    (wins writers ⟨t, race.dialogues.set k d'⟩ stream).Perm ((w.win stream d').toList ++ race.wins writers stream) :=
  filterMap_zip_set hw hd hnone

/-- What a writer has to do is new, or it is another writer. -/
theorem getElem?_set_cases {α : Type} {xs : List α} {x y : α} (h : (xs.set k x)[j]? = some y) :
    (j = k ∧ y = x) ∨ (j ≠ k ∧ xs[j]? = some y) := by
  by_cases hj : j = k
  · subst hj
    rw [List.getElem?_set_self'] at h
    obtain ⟨_, -, rfl⟩ := Option.map_eq_some_iff.1 h
    exact .inl ⟨rfl, rfl⟩
  · rw [List.getElem?_set_ne (Ne.symm hj)] at h
    exact .inr ⟨hj, h⟩

namespace Sound

variable {held : Option (List Document)} {current : Option Nat} {r : AppendResult} {writes batch : List Document}

theorem hold (h : Sound c writers race) (hw : writers[k]? = some w) (hd : race.dialogues[k]? = some d)
    (hheld : ∀ writes, held = some writes →
      (∀ i d, writes[i]? = some d → Labelled w.call.stream (race.sessions.count w.call.stream + i) d) ∧
        ∀ j writes', j ≠ k → race.sessions.pending j = some writes' → ∀ d ∈ writes, ∀ d' ∈ writes', ¬SameSlot d d')
    (hn : ∀ documents, (k, documents) ∉ race.sessions.commits) (hstage : Stage c k w (race.sessions.hold k held) d') :
    Sound c writers ⟨race.sessions.hold k held, race.dialogues.set k d'⟩ := by
  constructor
  case length => rw [List.length_set, h.length]
  case stage =>
    intro j w' d'' hw' hd''
    rcases getElem?_set_cases hd'' with ⟨rfl, rfl⟩ | ⟨hj, hd''⟩
    · cases hw.symm.trans hw'
      exact hstage
    · refine (h.stage j w' d'' hw' hd'').mono (fun _ => Iff.rfl) (Nat.le_refl _) fun writes hp => ?_
      rwa [Sessions.pending_hold_of_ne hj] at hp
  case ordered => exact h.ordered
  case held =>
    intro j writes hp
    by_cases hj : j = k
    · subst hj
      rw [Sessions.pending_hold_self] at hp
      exact ⟨w, hw, (hheld writes hp).1⟩
    · rw [Sessions.pending_hold_of_ne hj] at hp
      exact h.held j writes hp
  case apart =>
    intro i j hij writes writes' hp hp'
    by_cases hi : i = k
    · subst hi
      rw [Sessions.pending_hold_self] at hp
      rw [Sessions.pending_hold_of_ne hij.symm] at hp'
      exact (hheld writes hp).2 j writes' hij.symm hp'
    · rw [Sessions.pending_hold_of_ne hi] at hp
      by_cases hj : j = k
      · subst hj
        rw [Sessions.pending_hold_self] at hp'
        exact fun d hd d' hd' hs => (hheld writes' hp').2 i writes hi hp d' hd' d hd hs.symm
      · rw [Sessions.pending_hold_of_ne hj] at hp'
        exact h.apart i j hij writes writes' hp hp'
  case tile =>
    intro stream
    have hwins := wins_set hw hd ((h.stage k w d hw hd).win_eq_none hn stream) d' (race.sessions.hold k held)
    rw [hstage.win_eq_none hn stream] at hwins
    exact (hwins.flatMap_right _).trans (h.tile stream)
  case once => exact h.once
  case owners => exact h.owners

theorem expire (h : Sound c writers race) (k : Nat) :
    Sound c writers ⟨race.sessions.hold k none, race.dialogues⟩ := by
  have hpending : ∀ {j writes}, (race.sessions.hold k none).pending j = some writes →
      race.sessions.pending j = some writes := by
    intro j writes hp
    by_cases hj : j = k
    · subst hj
      rw [Sessions.pending_hold_self] at hp
      cases hp
    · rwa [Sessions.pending_hold_of_ne hj] at hp
  constructor
  case length => exact h.length
  case stage =>
    exact fun j w d hw hd => (h.stage j w d hw hd).mono (fun _ => Iff.rfl) (Nat.le_refl _) fun _ => hpending
  case ordered => exact h.ordered
  case held => exact fun j writes hp => h.held j writes (hpending hp)
  case apart => exact fun i j hij writes writes' hp hp' => h.apart i j hij writes writes' (hpending hp) (hpending hp')
  case tile => exact h.tile
  case once => exact h.once
  case owners => exact h.owners

/-- The documents of a transaction that is committed belong to the stream of its writer. -/
theorem filter_writes (h : Sound c writers race) (hw : writers[k]? = some w)
    (hp : race.sessions.pending k = some writes) (stream : String) :
    writes.filter (belongsTo stream) = if w.call.stream = stream then writes else [] := by
  have hl : ∀ d ∈ writes, belongsTo stream d = true ↔ w.call.stream = stream := by
    intro d hd
    obtain ⟨i, hi⟩ := List.mem_iff_getElem?.1 hd
    exact ((h.held_apart hw _ hp).1 i d hi).belongsTo_iff
  split
  · rename_i hs
    exact List.filter_eq_self.2 fun d hd => (hl d hd).2 hs
  · rename_i hs
    exact List.filter_eq_nil_iff.2 fun d hd hb => hs ((hl d hd).1 hb)

/-- Of a stream's writers only one holds documents. -/
theorem eq_nil_of_ne (h : Sound c writers race) (hw : writers[k]? = some w) {w' : Writer}
    (hw' : writers[j]? = some w') (hj : j ≠ k) (hs : w'.call.stream = w.call.stream) {writes' : List Document}
    (hp : race.sessions.pending k = some writes) (hp' : race.sessions.pending j = some writes') (hne : writes ≠ []) :
    writes' = [] := by
  obtain ⟨d, writes, rfl⟩ := List.exists_cons_of_ne_nil hne
  cases writes' with
  | nil => rfl
  | cons d' writes' =>
    have hl := (h.held_apart hw _ hp).1 0 d rfl
    have hl' := (h.held_apart hw' _ hp').1 0 d' rfl
    rw [hs] at hl'
    exact absurd ((sameSlot_iff hl' hl).2 ⟨rfl, rfl⟩)
      (h.apart j k hj _ _ hp' hp d' List.mem_cons_self d List.mem_cons_self)

/-- A writer that succeeds gets the versions behind the committed ones. -/
theorem versions_win (h : Sound c writers race) (hw : writers[k]? = some w)
    (hp : race.sessions.pending k = some writes) (hplan : w.plan current = .ok (r, batch))
    (hkeyed : List.Forall₂ Keyed batch writes) (hle : versionAfter current ≤ race.sessions.count w.call.stream)
    (stream : String) :
    ((w.win stream (.done (.ok r))).toList.flatMap fun a => a.2.versions) =
      List.range' (race.sessions.count stream) (if w.call.stream = stream then writes.length else 0) := by
  have hlength : w.call.events.length = writes.length := by
    rw [← Codec.length_encodeAll (Codec.plan_eq_ok_iff.1 hplan).2.1, hkeyed.length_eq]
  rw [Writer.win]
  by_cases hs : w.call.stream = stream
  · subst hs
    rw [if_pos rfl]
    by_cases he : w.call.events = []
    · rw [if_neg (fun hand => hand.2 he), ← hlength, he]
      rfl
    · have hl : ∀ i d, (writes ++ [])[i]? = some d → Labelled w.call.stream (versionAfter current + i) d := by
        intro i d hd
        rw [List.append_nil] at hd
        exact labelled_of_keyed hplan (List.prefix_refl _) hkeyed hd
      have hne : writes ++ [] ≠ [] := by
        rw [List.append_nil, ← List.length_pos_iff, ← hlength, List.length_pos_iff]
        exact he
      have hcount := h.versionAfter_eq_count hw hp hle hl (fun d hd => by cases hd) hne
      rw [if_pos ⟨rfl, he⟩, Option.toList_some, List.flatMap_singleton, Writer.versions_of_plan hplan, hcount,
        hkeyed.length_eq]
  · rw [if_neg (fun hand => hs hand.1), if_neg hs]
    rfl

theorem count_commit (h : Sound c writers race) (hw : writers[k]? = some w)
    (hp : race.sessions.pending k = some writes) (stream : String) :
    (race.sessions.commit k writes).count stream =
      race.sessions.count stream + if w.call.stream = stream then writes.length else 0 := by
  rw [Sessions.count_commit, h.filter_writes hw hp]
  split <;> rfl

/-- A commit brings the versions behind the committed ones. -/
theorem ordered_commit (h : Sound c writers race) (hw : writers[k]? = some w)
    (hp : race.sessions.pending k = some writes) (stream : String) :
    Ordered stream ((race.sessions.commit k writes).documentsOf stream) := by
  intro i d hd
  rw [Sessions.documentsOf_commit, h.filter_writes hw hp] at hd
  split at hd
  · rename_i hs
    subst hs
    rcases Nat.lt_or_ge i (race.sessions.documentsOf w.call.stream).length with hlt | hge
    · rw [List.getElem?_append_left hlt] at hd
      exact h.ordered _ i d hd
    · rw [List.getElem?_append_right hge] at hd
      have hl := (h.held_apart hw _ hp).1 _ d hd
      rwa [Sessions.count, Nat.add_sub_cancel' hge] at hl
  · rw [List.append_nil] at hd
    exact h.ordered stream i d hd

/-- A commit does not reach the streams of the others that hold documents. -/
theorem count_commit_of_held (h : Sound c writers race) (hw : writers[k]? = some w)
    (hp : race.sessions.pending k = some writes) {w' : Writer} (hw' : writers[j]? = some w') (hj : j ≠ k)
    {writes' : List Document} (hp' : race.sessions.pending j = some writes') (hne : writes' ≠ []) :
    (race.sessions.commit k writes).count w'.call.stream = race.sessions.count w'.call.stream := by
  rw [h.count_commit hw hp]
  split
  · rename_i hs
    rw [h.eq_nil_of_ne hw' hw hj.symm hs hp' hp hne]
    rfl
  · rfl

theorem commit (h : Sound c writers race) (hw : writers[k]? = some w) (hd : race.dialogues[k]? = some d)
    (hn : ∀ documents, (k, documents) ∉ race.sessions.commits) (hp : race.sessions.pending k = some writes)
    (hplan : w.plan current = .ok (r, batch)) (hkeyed : List.Forall₂ Keyed batch writes)
    (hle : versionAfter current ≤ race.sessions.count w.call.stream) :
    Sound c writers ⟨race.sessions.commit k writes, race.dialogues.set k (.done (.ok r))⟩ := by
  constructor
  case length => rw [List.length_set, h.length]
  case stage =>
    intro j w' d'' hw' hd''
    rcases getElem?_set_cases hd'' with ⟨rfl, rfl⟩ | ⟨hj, hd''⟩
    · cases hw.symm.trans hw'
      exact .succeeded hplan hkeyed (List.mem_append_right _ (List.mem_singleton_self _))
    · refine (h.stage j w' d'' hw' hd'').mono (fun documents => ?_) ?_ fun _ hp' =>
        (Sessions.pending_commit_eq_some hp').2
      · simp [Sessions.commit, hj]
      · rw [h.count_commit hw hp]
        exact Nat.le_add_right _ _
  case ordered => exact h.ordered_commit hw hp
  case held =>
    intro j writes' hp'
    obtain ⟨hj, hp'⟩ := Sessions.pending_commit_eq_some hp'
    obtain ⟨w', hw', hl⟩ := h.held j writes' hp'
    refine ⟨w', hw', fun i d' hd' => ?_⟩
    have hne : writes' ≠ [] := List.ne_nil_of_mem (List.mem_of_getElem? hd')
    rw [h.count_commit_of_held hw hp hw' hj hp' hne]
    exact hl i d' hd'
  case apart =>
    intro i j hij writes' writes'' hp' hp''
    exact h.apart i j hij writes' writes'' (Sessions.pending_commit_eq_some hp').2
      (Sessions.pending_commit_eq_some hp'').2
  case tile =>
    intro stream
    have hwins := wins_set hw hd ((h.stage k w d hw hd).win_eq_none hn stream) (.done (.ok r))
      (race.sessions.commit k writes)
    refine (hwins.flatMap_right _).trans ?_
    rw [List.flatMap_append, h.count_commit hw hp]
    refine (List.perm_append_comm.trans ((h.tile stream).append_right _)).trans (.of_eq ?_)
    rw [← History.range_append_range', h.versions_win hw hp hplan hkeyed hle]
  case once =>
    rw [Sessions.commit, List.map_append, List.nodup_append]
    refine ⟨h.once, List.nodup_singleton _, ?_⟩
    rintro j hj _ hk rfl
    cases List.mem_singleton.1 hk
    obtain ⟨⟨_, documents⟩, hm, rfl⟩ := List.mem_map.1 hj
    exact hn documents hm
  case owners =>
    intro x hx
    rcases List.mem_append.1 hx with hx | hx
    · exact h.owners x hx
    · cases List.mem_singleton.1 hx
      exact (List.getElem?_eq_some_iff.1 hw).1

theorem step (h : Sound c writers race) (hs : Step c race race') : Sound c writers race' := by
  cases hs with
  | @move k d d' t hd hm =>
    have hlt : k < writers.length := h.length ▸ (List.getElem?_eq_some_iff.1 hd).1
    have hw := List.getElem?_eq_getElem hlt
    cases h.outcome hw hd hm with
    | holds hheld hn hstage => exact h.hold hw hd hheld hn hstage
    | commits hn hp hplan hkeyed hle => exact h.commit hw hd hn hp hplan hkeyed hle
  | expire k => exact h.expire k

end Sound

theorem sound_of_reachable (h : Reachable c writers race) : Sound c writers race := by
  induction h with
  | refl => exact sound_start c writers
  | tail _ hs ih => exact ih.step hs

/-! ## The outcome of a race -/

/-- What writers can rely on: the versions of each stream are given in order and once each, and what a writer was not
told is stored, is not. -/
structure Serial (writers : List Writer) (race : Race) : Prop where
  /-- The committed documents of a stream have the versions from zero on. -/
  versions : ∀ stream, Ordered stream (race.sessions.documentsOf stream)
  /-- The ranges of the calls that brought events tile these versions. -/
  tile : ∀ stream, ((race.wins writers stream).flatMap fun a => a.2.versions).Perm
    (List.range (race.sessions.documentsOf stream).length)
  /-- Each range has a version for each event of its batch, from the one behind the old version on. -/
  range : ∀ stream, ∀ a ∈ race.wins writers stream,
    a.2.versions = List.range' (versionAfter a.2.oldVersion) a.1.events.length
  disjoint : ∀ stream, (race.wins writers stream).Pairwise fun a b => ∀ v ∈ a.2.versions, v ∉ b.2.versions
  noStream : ∀ stream, ((race.wins writers stream).filter fun a => a.1.expected = .noStream).length ≤ 1
  exact_version : ∀ stream v, ((race.wins writers stream).filter fun a => a.1.expected = .exact v).length ≤ 1
  /-- What was committed are the documents of calls that succeeded, as planned for the version that they were told. -/
  committed : ∀ k documents, (k, documents) ∈ race.sessions.commits → ∃ w current r batch, writers[k]? = some w ∧
    race.dialogues[k]? = some (.done (.ok r)) ∧ w.plan current = .ok (r, batch) ∧ List.Forall₂ Keyed batch documents
  /-- A call that succeeded was committed, and once. -/
  succeeded : ∀ k r, race.dialogues[k]? = some (.done (.ok r)) → ∃! documents, (k, documents) ∈ race.sessions.commits
  once : (race.sessions.commits.map Prod.fst).Nodup
  /-- A call that failed has nothing in the collection. -/
  refused : ∀ k e, race.dialogues[k]? = some (.done (.error e)) → ∀ documents, (k, documents) ∉ race.sessions.commits

namespace Sound

/-- A session commits once. -/
theorem documents_inj (h : Sound c writers race) {documents documents' : List Document}
    (hm : (k, documents) ∈ race.sessions.commits) (hm' : (k, documents') ∈ race.sessions.commits) :
    documents = documents' := by
  cases List.inj_on_of_nodup_map h.once hm hm' rfl
  rfl

/-- The writer of what was committed has succeeded. -/
theorem exists_of_commit (h : Sound c writers race) {documents : List Document}
    (hm : (k, documents) ∈ race.sessions.commits) :
    ∃ w current r batch, writers[k]? = some w ∧ race.dialogues[k]? = some (.done (.ok r)) ∧
      w.plan current = .ok (r, batch) ∧ List.Forall₂ Keyed batch documents := by
  have hw := List.getElem?_eq_getElem (h.owners _ hm)
  obtain ⟨d, hd⟩ : ∃ d, race.dialogues[k]? = some d :=
    ⟨_, List.getElem?_eq_getElem (h.length.symm ▸ h.owners _ hm)⟩
  cases h.stage k _ d hw hd with
  | waiting _ _ hn => exact absurd hm (hn _)
  | storing _ _ _ hn => exact absurd hm (hn _)
  | aborting hn => exact absurd hm (hn _)
  | failed hn => exact absurd hm (hn _)
  | succeeded hplan hkeyed hm' =>
    rw [h.documents_inj hm hm']
    exact ⟨_, _, _, _, hw, hd, hplan, hkeyed⟩

/-- A call that brought events found its stream as it expected. -/
theorem fits_of_mem_wins (h : Sound c writers race) {a : AppendCall × AppendResult}
    (ha : a ∈ race.wins writers stream) : History.Fits a ∧ a.1.events ≠ [] := by
  obtain ⟨⟨w, d⟩, hx, hwin⟩ := List.mem_filterMap.1 ha
  obtain ⟨k, hk⟩ := List.mem_iff_getElem?.1 hx
  obtain ⟨hw, hd⟩ := List.getElem?_zip_eq_some.1 hk
  simp only [Writer.win] at hwin
  split at hwin
  · split at hwin
    · rename_i r hand
      cases hwin
      obtain ⟨current, batch, -, hplan, -, -⟩ := (h.stage k w _ hw hd).exists_of_ok
      have hversions := Writer.versions_of_plan hplan
      obtain ⟨hadmits, hbatch, hr⟩ := Codec.plan_eq_ok_iff.1 hplan
      rw [Codec.length_encodeAll hbatch] at hversions
      rw [hr] at hversions ⊢
      exact ⟨⟨hadmits, hversions⟩, hand.2⟩
    · cases hwin
  · cases hwin

theorem disjoint (h : Sound c writers race) (stream : String) :
    (race.wins writers stream).Pairwise fun a b => ∀ v ∈ a.2.versions, v ∉ b.2.versions := by
  have hn := (h.tile stream).nodup_iff.2 List.nodup_range
  exact (List.pairwise_flatMap.1 hn).2.imp fun hab v ha hb => hab v ha v hb rfl

/-- Of calls that expect the stream at one version, one succeeds at most with events in it. -/
theorem length_filter_le_one (h : Sound c writers race) (stream : String) {expected : ExpectedVersion}
    {current : Option Nat} (he : ∀ old, expected.Admits old → old = current) :
    ((race.wins writers stream).filter fun a => a.1.expected = expected).length ≤ 1 := by
  refine History.length_filter_le_one_of_pairwise (h.disjoint stream) _ (v := versionAfter current) fun a ha hp => ?_
  obtain ⟨hfits, hne⟩ := h.fits_of_mem_wins ha
  have hadmits := hfits.1
  rw [of_decide_eq_true hp] at hadmits
  rw [← he _ hadmits]
  exact hfits.mem_versions hne

end Sound

/-- **Races**: however the requests of any number of writers come in between each other, the versions of each stream
are given in order and once each, of the calls that expect no stream, or the same version, at most one brings events in,
and what is committed are the documents of just the calls that succeeded. -/
theorem writers_serial (h : Reachable c writers race) : Serial writers race := by
  have hs := sound_of_reachable h
  have hsucceeded : ∀ k r, race.dialogues[k]? = some (.done (.ok r)) →
      ∃! documents, (k, documents) ∈ race.sessions.commits := by
    intro k r hd
    have hw := List.getElem?_eq_getElem (hs.length ▸ (List.getElem?_eq_some_iff.1 hd).1)
    obtain ⟨_, _, documents, -, -, hm⟩ := (hs.stage k _ _ hw hd).exists_of_ok
    exact ⟨documents, hm, fun documents' hm' => hs.documents_inj hm' hm⟩
  constructor
  case versions => exact hs.ordered
  case tile => exact hs.tile
  case range => exact fun stream a ha => (hs.fits_of_mem_wins ha).1.2
  case disjoint => exact hs.disjoint
  case noStream => exact fun stream => hs.length_filter_le_one stream fun old (ho : old = none) => ho
  case exact_version => exact fun stream v => hs.length_filter_le_one stream fun old (ho : old = some v) => ho
  case committed => exact fun k documents hm => hs.exists_of_commit hm
  case succeeded => exact hsucceeded
  case once => exact hs.once
  case refused =>
    intro k e hd documents hm
    obtain ⟨_, _, r, _, -, hd', -, -⟩ := hs.exists_of_commit hm
    rw [hd] at hd'
    cases hd'

/-! Two writers for one stream, of whom the second one is told what was true in the beginning. -/

/-- A writer with one event for a stream that is not there yet. -/
def opener : Writer := ⟨{}, History.opening⟩

/-- A collection. -/
def strand : Collection := ⟨"strand", "events"⟩

/-- What a writer goes on with, when it has these documents to store. -/
def openerStoring (documents : List Document) : Dialogue (Except StoreError AppendResult) :=
  (opener.store strand).storing "meter-4" .noStream ⟨"meter-4", none, some 0⟩ documents

theorem exists_plan_opener : ∃ d, opener.plan none = .ok (⟨"meter-4", none, some 0⟩, [d]) := by
  have hstorable : ∀ e ∈ History.opening.events, e.Storable .rfc3339String ∧ e.DoublesReadBack :=
    fun e he => History.storable_reading List.mem_cons_self he
  obtain ⟨batch, hbatch⟩ := Codec.exists_encodeAll hstorable "meter-4" (show 0 + 1 ≤ 0x8000000000000000 by decide)
  match batch, hbatch, Codec.length_encodeAll hbatch with
  | [d], hbatch, _ => exact ⟨d, Codec.plan_eq_ok_iff.2 ⟨rfl, hbatch, rfl⟩⟩

/-- A writer may be told what was true in the beginning. -/
theorem opener_begins {d : Document} (hplan : opener.plan none = .ok (⟨"meter-4", none, some 0⟩, [d])) (k : Nat)
    (t : Sessions) :
    (opener.dialogue strand).Moves (Isolates strand k) t (t.hold k (some [])) (openerStoring [d]) := by
  have hfound : Isolates strand k t ((opener.store strand).versionRequest "meter-4") {} (t.hold k (some [])) :=
    @Isolates.find strand k t _ _ 0 _ rfl rfl (fun _ => rfl) ⟨[], .refl _, fun _ _ => .nil, rfl⟩
  have hnext : (opener.store strand).proceeding "meter-4" .noStream [Codec.reading] (.ok none) =
      openerStoring [d] := by
    have hmade : (opener.store strand).codec.plan "meter-4" .noStream [Codec.reading] none =
        .ok (⟨"meter-4", none, some 0⟩, [d]) := hplan
    rw [EventStore.proceeding, Except.ok_bind, hmade]
    rfl
  rw [Writer.dialogue_eq rfl (by decide), ← hnext]
  exact .send hfound

/-- The first writer has committed before the second one inserts. -/
theorem exists_reachable_rivals :
    ∃ race, Reachable strand [opener, opener] race ∧
      race.dialogues = [.done (.ok ⟨"meter-4", none, some 0⟩), .done (.error (.conflict "meter-4" .noStream))] := by
  obtain ⟨d, hplan⟩ := exists_plan_opener
  have hstore : (openerStoring [d]).Moves (Isolates strand 0) (Sessions.empty.hold 0 (some []))
      ((Sessions.empty.hold 0 (some [])).hold 0 (some ([] ++ [d]))) (openerStoring []) := by
    have hfree (d : Document) : (Sessions.empty.hold 0 (some [])).Free 0 d := by
      refine ⟨fun _ hm => (by cases hm), fun j writes hj hp => ?_⟩
      rw [Sessions.pending_hold_of_ne hj] at hp
      cases hp
    have hinserted : Isolates strand 0 (Sessions.empty.hold 0 (some [])) ((opener.store strand).insertRequest [d]) {}
        ((Sessions.empty.hold 0 (some [])).hold 0 (some ([] ++ [d]))) :=
      .insert (n := 1) (Sessions.pending_hold_self ..) rfl Nat.one_pos (Nat.le_refl 1) (.cons rfl .nil)
        fun d' _ => hfree d'
    rw [openerStoring, EventStore.storing_cons]
    exact .last hinserted rfl
  have hcommit (t : Sessions) (hp : t.pending 0 = some [d]) : (openerStoring []).Moves (Isolates strand 0) t
      (t.commit 0 [d]) (.done (.ok ⟨"meter-4", none, some 0⟩)) := by
    have hcommitted : Isolates strand 0 t (opener.store strand).commitRequest {} (t.commit 0 [d]) :=
      .commit (n := 1) hp rfl
    rw [openerStoring, EventStore.storing_nil]
    exact .send hcommitted
  have hrefuse (t : Sessions) : (openerStoring [d]).Moves (Isolates strand 1) t t
      ((opener.store strand).aborting (.conflict "meter-4" .noStream)) := by
    have hrefused : Isolates strand 1 t ((opener.store strand).insertRequest [d])
        { failure := some duplicateKey } t := .refuse ⟨_, rfl⟩
    rw [openerStoring, EventStore.storing_cons]
    exact .last hrefused rfl
  have habort (t : Sessions) : ((opener.store strand).aborting (.conflict "meter-4" .noStream)).Moves
      (Isolates strand 1) t (t.hold 1 none) (.done (.error (.conflict "meter-4" .noStream))) :=
    .send (show Isolates strand 1 t (opener.store strand).abortRequest {} _ from .abort)
  have hreach : Reachable strand [opener, opener] ⟨_, _⟩ :=
    (((((Relation.ReflTransGen.refl.tail (Step.move (k := 0) rfl (opener_begins hplan 0 _))).tail
      (.move (k := 0) rfl hstore)).tail
      (.move (k := 0) rfl (hcommit _ (Sessions.pending_hold_self ..)))).tail
      (.move (k := 1) rfl (opener_begins hplan 1 _))).tail
      (.move (k := 1) rfl (hrefuse _))).tail
      (.move (k := 1) rfl (habort _))
  exact ⟨_, hreach, rfl⟩

theorem writers_serial_rivals :
    ∃ race, Reachable strand [opener, opener] race ∧
      race.dialogues = [.done (.ok ⟨"meter-4", none, some 0⟩), .done (.error (.conflict "meter-4" .noStream))] ∧
      Serial [opener, opener] race := by
  obtain ⟨race, hrace, hdialogues⟩ := exists_reachable_rivals
  exact ⟨race, hrace, hdialogues, writers_serial hrace⟩

end Race

end Chronicle.Database
