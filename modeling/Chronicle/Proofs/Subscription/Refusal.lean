import Chronicle.Proofs.Fields
import Chronicle.Proofs.Subscription.Restart

/-!
# Subscriptions that fail

A subscription of a running subscriber fails and changes nothing. Other subscriptions fail after the registry has
forgotten the subscriber's finished worker, when the position cannot be loaded or no feed can be opened at it. From then
on the registry is like one in which nothing was tried, except that it does not know the id (`Registry.Resembles`), and
whatever happens keeps it so (`System.Resembles.run`): nothing but the outcome of the finished worker is lost, and
it stays lost until the id is subscribed or released (`System.failed_subscription`).
-/

namespace Chronicle

namespace Worker

/-- The same worker, but for a stop signal after its end. -/
def Matches (w w' : Worker) : Prop := w' = w ∨ (w.isFinished = true ∧ w'.state = w.state)

variable {w w' : Worker}

theorem Matches.state_eq (h : w.Matches w') : w'.state = w.state := by
  rcases h with rfl | ⟨-, hs⟩
  · rfl
  · exact hs

theorem Matches.isFinished_eq (h : w.Matches w') : w'.isFinished = w.isFinished := isFinished_of_state h.state_eq

theorem Matches.outcome?_eq (h : w.Matches w') : w'.outcome? = w.outcome? := by
  rw [outcome?, outcome?, stage_of_state h.state_eq]

theorem Matches.stop (h : w.Matches w') : w.stop.Matches w'.stop := by
  rcases h with rfl | ⟨hf, hs⟩
  · exact .inl rfl
  · exact .inr ⟨hf, hs⟩

/-- A stop signal after its end does not matter. -/
theorem Matches.stop_left (h : w.Matches w') (hf : w.isFinished = true) : w.stop.Matches w' :=
  .inr ⟨hf, h.state_eq⟩

end Worker

namespace Registry

variable {r r' : Registry} {id other : String} {lost : Bool} {k : Nat} {w : Worker}

/-! ## Numbers -/

/-- Each registered number is that of a worker of the id. -/
def Coherent (r : Registry) : Prop := ∀ id k, r.registered.get? id = some k → ∃ w, r.Owns id k w

theorem mem_numbers_iff : k ∈ r.registered.entries.map Prod.snd ↔ ∃ id, r.registered.get? id = some k := by
  simp only [NameMap.get?_eq, List.mem_map, Prod.exists, exists_eq_right]
  constructor
  · rintro ⟨id, hm⟩
    exact ⟨id, Fields.get?_of_mem r.registered.distinct_entries hm⟩
  · rintro ⟨id, hg⟩
    exact ⟨id, Fields.mem_of_get? hg⟩

/-- Dropping the registry tells just the registered workers to stop. -/
theorem getElem?_abandon (r : Registry) (j : Nat) :
    r.abandon.workers[j]? =
      (r.workers[j]?).map fun w => if j ∈ r.registered.entries.map Prod.snd then w.stop else w := by
  have hfold (entries : List (String × Nat)) (q : Registry) :
      (entries.foldl (fun q e => q.update e.2 .stop) q).workers[j]? =
        (q.workers[j]?).map fun w => if j ∈ entries.map Prod.snd then w.stop else w := by
    induction entries generalizing q with
    | nil => simp
    | cons e rest ih =>
      rw [List.foldl_cons, ih, getElem?_update, Option.map_map]
      refine congrArg (fun f => (q.workers[j]?).map f) (funext fun w => ?_)
      rw [Function.comp_apply]
      by_cases he : e.2 = j
      · subst he
        simp only [List.map_cons, List.mem_cons, true_or, if_true]
        split <;> rfl
      · have hmem : j ∈ (e :: rest).map Prod.snd ↔ j ∈ rest.map Prod.snd := by simp [Ne.symm he]
        simp only [if_neg he, hmem]
  exact hfold r.registered.entries { r with registered := .empty }

theorem registered_abandon (r : Registry) : r.abandon.registered = .empty := by
  have hfold (entries : List (String × Nat)) (q : Registry) :
      (entries.foldl (fun q e => q.update e.2 .stop) q).registered = q.registered := by
    induction entries generalizing q with
    | nil => rfl
    | cons e rest ih => rw [List.foldl_cons, ih, update]
  exact hfold r.registered.entries { r with registered := .empty }

/-! ## Registries that know as much -/

/-- A registry like `r`, except that it may have lost the id of a worker that has finished. -/
structure Resembles (id : String) (lost : Bool) (r r' : Registry) : Prop where
  workers : ∀ j : Nat, Option.Rel Worker.Matches r.workers[j]? r'.workers[j]?
  registered : ∀ name, r'.registered.get? name = if lost = true ∧ name = id then none else r.registered.get? name
  finished : lost = true → ∃ k w, r.registered.get? id = some k ∧ r.workers[k]? = some w ∧ w.isFinished = true

namespace Resembles

theorem refl (id : String) (r : Registry) : Resembles id false r r where
  workers j := by
    cases r.workers[j]? with
    | none => exact .none
    | some w => exact .some (.inl rfl)
  registered name := by simp
  finished := nofun

theorem getElem? (h : Resembles id lost r r') (hk : r.workers[k]? = some w) :
    ∃ w', r'.workers[k]? = some w' ∧ w.Matches w' := by
  have hw := h.workers k
  rw [hk] at hw
  cases hw' : r'.workers[k]? with
  | none =>
    rw [hw'] at hw
    cases hw
  | some w' =>
    rw [hw'] at hw
    cases hw with
    | some hm => exact ⟨w', rfl, hm⟩

theorem getElem?_eq_none (h : Resembles id lost r r') (hk : r.workers[k]? = none) : r'.workers[k]? = none := by
  have hw := h.workers k
  rw [hk] at hw
  cases hw' : r'.workers[k]? with
  | none => rfl
  | some w' =>
    rw [hw'] at hw
    cases hw

/-- What is done to a worker in both registries. -/
theorem map (h : Resembles id lost r r') (j : Nat) {f f' : Worker → Worker}
    (hf : ∀ w w', r.workers[j]? = some w → r'.workers[j]? = some w' → w.Matches w' → (f w).Matches (f' w')) :
    Option.Rel Worker.Matches (r.workers[j]?.map f) (r'.workers[j]?.map f') := by
  cases hj : r.workers[j]? with
  | none =>
    rw [h.getElem?_eq_none hj]
    exact .none
  | some w =>
    obtain ⟨w', hw', hm⟩ := h.getElem? hj
    rw [hw', Option.map_some, Option.map_some]
    exact .some (hf w w' hj hw' hm)

theorem length_eq (h : Resembles id lost r r') : r'.workers.length = r.workers.length := by
  have hle : r.workers.length ≤ r'.workers.length := by
    by_contra hlt
    obtain ⟨w', hw', -⟩ := h.getElem? (List.getElem?_eq_getElem (Nat.lt_of_not_le hlt))
    exact Nat.lt_irrefl _ (List.getElem?_eq_some_iff.1 hw').1
  have hge := List.getElem?_eq_none_iff.1 (h.getElem?_eq_none (List.getElem?_eq_none (Nat.le_refl _)))
  exact Nat.le_antisymm hge hle

theorem get?_of_ne (h : Resembles id lost r r') (hn : ¬(lost = true ∧ other = id)) :
    r'.registered.get? other = r.registered.get? other := by
  rw [h.registered, if_neg hn]

theorem outcome?_eq (h : Resembles id lost r r') (k : Nat) : r'.outcome? k = r.outcome? k := by
  rw [outcome?, outcome?]
  cases hk : r.workers[k]? with
  | none => rw [h.getElem?_eq_none hk]
  | some w =>
    obtain ⟨w', hw', hm⟩ := h.getElem? hk
    rw [hw']
    exact hm.outcome?_eq

/-- A lost worker does not run, so that nobody misses it. -/
theorem isRunning_eq (h : Resembles id lost r r') (name : String) : r'.isRunning name = r.isRunning name := by
  by_cases hn : lost = true ∧ name = id
  · obtain ⟨hlost, rfl⟩ := hn
    obtain ⟨k, w, hk, hw, hf⟩ := h.finished hlost
    have hnone := h.registered name
    rw [if_pos ⟨hlost, rfl⟩] at hnone
    simp [isRunning, worker?, hnone, hk, hw, hf]
  · rw [isRunning, isRunning, worker?, worker?, h.get?_of_ne hn]
    cases hk : r.registered.get? name with
    | none => rfl
    | some k =>
      cases hw : r.workers[k]? with
      | none => simp [hw, h.getElem?_eq_none hw]
      | some w =>
        obtain ⟨w', hw', hm⟩ := h.getElem? hw
        simp [hw, hw', hm.isFinished_eq]

/-- A subscriber that runs is not the lost one. -/
theorem not_lost_of_isRunning (h : Resembles id lost r r') (hrun : r.isRunning other = true) :
    ¬(lost = true ∧ other = id) := by
  rintro ⟨hlost, rfl⟩
  obtain ⟨k, w, hk, hw, hf⟩ := h.finished hlost
  simp [isRunning, worker?, hk, hw, hf] at hrun

theorem lost_and_ne (hn : ¬(lost = true ∧ other = id)) : (lost && other ≠ id) = lost := by
  cases lost with
  | false => rfl
  | true =>
    have hne : other ≠ id := fun he => hn ⟨rfl, he⟩
    simp [hne]

theorem release_eq (h : Resembles id lost r r') (hn : ¬(lost = true ∧ other = id)) :
    (r'.release other).1 = (r.release other).1 := by
  rw [release, release, h.get?_of_ne hn]
  cases r.registered.get? other with
  | none => rfl
  | some k => rfl

/-! ## Steps -/

/-- Forgetting an id in both registries. -/
theorem erase (h : Resembles id lost r r') (other : String) :
    Resembles id (lost && other ≠ id) { r with registered := r.registered.erase other }
      { r' with registered := r'.registered.erase other } where
  workers := h.workers
  registered name := by
    simp only [NameMap.get?_erase, h.registered]
    grind
  finished hl := by
    obtain ⟨hlost, hne⟩ : lost = true ∧ other ≠ id := by simpa using hl
    obtain ⟨k, w, hk, hw, hf⟩ := h.finished hlost
    exact ⟨k, w, by rw [NameMap.get?_erase, if_neg hne, hk], hw, hf⟩

/-- A worker of both registries moves. -/
theorem update (h : Resembles id lost r r') {f f' : Worker → Worker}
    (hf : ∀ w w', r.workers[k]? = some w → r'.workers[k]? = some w' → w.Matches w' →
      (f w).Matches (f' w') ∧ (w.isFinished = true → (f w).isFinished = true)) :
    Resembles id lost (r.update k f) (r'.update k f') where
  workers j := by
    rw [getElem?_update, getElem?_update]
    refine h.map j fun w w' hj hj' hm => ?_
    by_cases hkj : k = j
    · subst hkj
      rw [if_pos rfl, if_pos rfl]
      exact (hf w w' hj hj' hm).1
    · rw [if_neg hkj, if_neg hkj]
      exact hm
  registered := h.registered
  finished hl := by
    obtain ⟨j, w, hj, hw, hfin⟩ := h.finished hl
    refine ⟨j, _, hj, by rw [getElem?_update, hw, Option.map_some], ?_⟩
    by_cases hkj : k = j
    · subst hkj
      obtain ⟨w', hw', hm⟩ := h.getElem? hw
      rw [if_pos rfl]
      exact (hf w w' hw hw' hm).2 hfin
    · rwa [if_neg hkj]

theorem spawn (h : Resembles id lost r r') (hn : ¬(lost = true ∧ other = id)) (feed : Feed) :
    Resembles id lost (r.spawn other feed) (r'.spawn other feed) where
  workers j := by
    simp only [Registry.spawn, List.getElem?_append, h.length_eq]
    split
    · exact h.workers j
    · cases [Worker.start other feed][j - r.workers.length]? with
      | none => exact .none
      | some w => exact .some (.inl rfl)
  registered name := by
    simp only [Registry.spawn, NameMap.get?_insert, h.registered, h.length_eq]
    grind
  finished hl := by
    obtain ⟨k, w, hk, hw, hf⟩ := h.finished hl
    have hne : other ≠ id := fun he => hn ⟨hl, he⟩
    refine ⟨k, w, ?_, ?_, hf⟩
    · rw [Registry.spawn, NameMap.get?_insert, if_neg hne, hk]
    · rw [Registry.spawn, List.getElem?_append_left (List.getElem?_eq_some_iff.1 hw).1, hw]

theorem release (h : Resembles id lost r r') (other : String) :
    Resembles id (lost && other ≠ id) (r.release other).2 (r'.release other).2 := by
  by_cases hn : lost = true ∧ other = id
  · -- only the registry that still knows the id takes it out
    obtain ⟨rfl, rfl⟩ := hn
    obtain ⟨k, w, hk, hw, hf⟩ := h.finished rfl
    have hnone := h.registered other
    rw [if_pos ⟨rfl, rfl⟩] at hnone
    simp only [Registry.release, hk, hnone]
    constructor
    case workers =>
      intro j
      rw [getElem?_update, ← Option.map_id_apply (x := r'.workers[j]?)]
      refine h.map j fun v v' hj _ hm => ?_
      by_cases hkj : k = j
      · subst hkj
        cases hw.symm.trans hj
        rw [if_pos rfl]
        exact hm.stop_left hf
      · rw [if_neg hkj]
        exact hm
    case registered =>
      intro name
      show r'.registered.get? name = if _ then none else (r.registered.erase other).get? name
      rw [NameMap.get?_erase, h.registered]
      grind
    case finished => simp
  · have hg := h.get?_of_ne hn
    cases hk : r.registered.get? other with
    | none =>
      simp only [Registry.release, hg, hk, lost_and_ne hn]
      exact h
    | some k =>
      simp only [Registry.release, hg, hk]
      exact (h.erase other).update fun _ _ _ _ hm => ⟨hm.stop, fun hf => hf⟩

theorem abandon (h : Resembles id lost r r') : Resembles id false r.abandon r'.abandon where
  workers j := by
    rw [getElem?_abandon, getElem?_abandon]
    refine h.map j fun w w' hj _ hm => ?_
    cases hf : w.isFinished with
    | true =>
      refine .inr ⟨?_, ?_⟩
      · split <;> exact hf
      · split <;> split <;> exact hm.state_eq
    | false =>
      -- the number of a worker that runs is not the lost one
      obtain rfl : w' = w := hm.resolve_right fun hm => by simp [hf] at hm
      have hmem : j ∈ r'.registered.entries.map Prod.snd ↔ j ∈ r.registered.entries.map Prod.snd := by
        rw [mem_numbers_iff, mem_numbers_iff]
        refine exists_congr fun name => ?_
        by_cases hn : lost = true ∧ name = id
        · obtain ⟨rfl, rfl⟩ := hn
          obtain ⟨k, v, hk, hv, hfin⟩ := h.finished rfl
          rw [h.registered, if_pos ⟨rfl, rfl⟩, hk]
          refine iff_of_false nofun fun hkj => ?_
          cases hkj
          cases hv.symm.trans hj
          rw [hfin] at hf
          cases hf
        · rw [h.get?_of_ne hn]
      simp only [hmem]
      exact .inl rfl
  registered name := by
    rw [registered_abandon, registered_abandon]
    simp
  finished := nofun

/-- Both registries answer a subscription in the same way. -/
theorem subscribe {σ : Type} (h : Resembles id lost r r')
    (load : String → σ → Except StoreError (Option Position) × σ) (openFeed : StartPosition → Except StoreError Feed)
    (other : String) (start : StartAt) (s : σ) :
    let result := r.subscribe load openFeed other start s
    let result' := r'.subscribe load openFeed other start s
    result'.1 = result.1 ∧ result'.2.1 = result.2.1 ∧ Resembles id (lost && other ≠ id) result.2.2 result'.2.2 := by
  simp only [Registry.subscribe, h.isRunning_eq other]
  have he := h.erase other
  split
  · rename_i hrun
    rw [lost_and_ne (h.not_lost_of_isRunning hrun)]
    exact ⟨rfl, rfl, h⟩
  · split
    · exact ⟨rfl, rfl, he⟩
    · split
      · exact ⟨rfl, rfl, he⟩
      · exact ⟨rfl, rfl, he.spawn (by simp) _⟩

end Resembles

/-- A subscription that fails leaves the registry as it is, or makes it forget a subscriber that is not running. -/
theorem subscribe_error_cases {σ : Type} {load : String → σ → Except StoreError (Option Position) × σ}
    {openFeed : StartPosition → Except StoreError Feed} {start : StartAt} {s : σ} {e : SubscriptionError}
    (h : (r.subscribe load openFeed id start s).1 = .error e) :
    let result := r.subscribe load openFeed id start s
    (r.isRunning id = true ∧ result.2 = (s, r)) ∨
      (r.isRunning id = false ∧ result.2 = ((load id s).2, { r with registered := r.registered.erase id })) := by
  unfold subscribe at h ⊢
  split
  · rename_i hrun
    exact .inl ⟨hrun, rfl⟩
  · rename_i hrun
    rw [if_neg hrun] at h
    refine .inr ⟨Bool.eq_false_iff.2 hrun, ?_⟩
    dsimp only at h ⊢
    split
    · rename_i hl
      rw [hl]
    · rename_i hl
      rw [hl] at h ⊢
      dsimp only at h ⊢
      split
      · rfl
      · rename_i hf
        rw [hf] at h
        cases h

theorem erase_registered_of_none (h : r.registered.get? id = none) :
    { r with registered := r.registered.erase id } = r := by
  have hm : r.registered.erase id = r.registered := by
    refine NameMap.ext_get? fun name => ?_
    rw [NameMap.get?_erase]
    split
    · subst name
      exact h.symm
    · rfl
  rw [hm]

/-- Forgetting an id whose worker has finished. -/
theorem resembles_erase (hk : r.registered.get? id = some k) (hw : r.workers[k]? = some w) (hf : w.isFinished = true) :
    Resembles id true r { r with registered := r.registered.erase id } where
  workers := (Resembles.refl id r).workers
  registered name := by
    simp only [NameMap.get?_erase, true_and]
    exact if_congr eq_comm rfl rfl
  finished _ := ⟨k, w, hk, hw, hf⟩

theorem ids_erase (r : Registry) (id : String) :
    ids { r with registered := r.registered.erase id } = r.ids.filter (· ≠ id) := by
  rw [ids, ids, NameMap.names, NameMap.names, List.filter_map]
  rfl

theorem Resembles.ids_eq (h : Resembles id false r r') : r'.ids = r.ids :=
  congrArg NameMap.names (NameMap.ext_get? fun name => h.get?_of_ne (by simp))

theorem Resembles.ids_filter (h : Resembles id true r r') : r'.ids = r.ids.filter (· ≠ id) := by
  rw [← ids_erase]
  refine congrArg NameMap.names (NameMap.ext_get? fun name => ?_)
  rw [h.registered, NameMap.get?_erase]
  simp only [true_and]
  exact if_congr eq_comm rfl rfl

end Registry

namespace System

variable {store codec : Codec} {s t : System} {id : String} {lost : Bool} {k : Nat} {w w' : Worker}

/-- A system like `s`, except that its registry may have lost the id of a worker that has finished. -/
structure Resembles (id : String) (lost : Bool) (s t : System) : Prop where
  log : t.log = s.log
  positions : t.positions = s.positions
  journal : t.journal = s.journal
  registry : s.registry.Resembles id lost t.registry

/-- Whether an action subscribes an id or takes it out. -/
def concerns (id : String) : Action → Bool
  | .subscribe other _ _ => other = id
  | .unsubscribe other => other = id
  | .abandon => true
  | _ => false

namespace Resembles

theorem poll (h : s.Resembles id lost t) (store codec : Codec) (k : Nat) :
    (s.step store codec (.poll k)).Resembles id lost (t.step store codec (.poll k)) := by
  cases hk : s.registry.workers[k]? with
  | none =>
    simp only [step, hk, h.registry.getElem?_eq_none hk]
    exact h
  | some w =>
    obtain ⟨w', hk', hm⟩ := h.registry.getElem? hk
    rw [step_poll hk, step_poll hk', h.log]
    -- the workers are the same, or both have ended and stay as they are
    obtain ⟨hpoll, hfin, hhand⟩ : (w.poll codec s.log).Matches (w'.poll codec s.log) ∧
        (w.isFinished = true → (w.poll codec s.log).isFinished = true) ∧
        handover k w' (w'.poll codec s.log) = handover k w (w.poll codec s.log) := by
      have hstay {v : Worker} (hf : v.isFinished = true) :
          v.poll codec s.log = v ∧ handover k v (v.poll codec s.log) = [] := by
        obtain ⟨hi, -⟩ := Worker.stage_of_isFinished hf
        exact ⟨Worker.poll_of_ne_idle codec s.log hi, handover_eq_nil (.inl hi) k⟩
      refine ⟨?_, fun hf => by rwa [(hstay hf).1], ?_⟩
      · rcases hm with rfl | ⟨hf, hs⟩
        · exact .inl rfl
        · rw [(hstay hf).1, (hstay ((Worker.isFinished_of_state hs).trans hf)).1]
          exact .inr ⟨hf, hs⟩
      · rcases hm with rfl | ⟨hf, hs⟩
        · rfl
        · rw [(hstay hf).2, (hstay ((Worker.isFinished_of_state hs).trans hf)).2]
    constructor
    case log => exact rfl
    case positions => exact h.positions
    case journal => simp only [h.journal, hhand]
    case registry =>
      refine h.registry.update fun v v' hv hv' hmv => ?_
      cases hk.symm.trans hv
      exact ⟨hpoll, hfin⟩

theorem settle (h : s.Resembles id lost t) (store codec : Codec) (k : Nat) (verdict : Verdict) (saves : Bool) :
    (s.step store codec (.settle k verdict saves)).Resembles id lost
      (t.step store codec (.settle k verdict saves)) := by
  cases hk : s.registry.workers[k]? with
  | none =>
    simp only [step, hk, h.registry.getElem?_eq_none hk]
    exact h
  | some w =>
    obtain ⟨w', hk', hm⟩ := h.registry.getElem? hk
    by_cases hst : ∃ event position, w.stage = .handling event position
    · obtain ⟨event, position, hst⟩ := hst
      obtain rfl : w' = w := hm.resolve_right fun hd => (Worker.stage_of_isFinished hd.1).2 event position hst
      rw [step_settle hk hst, step_settle hk' hst, h.positions]
      constructor
      case log => exact h.log
      case positions => exact rfl
      case journal => simp only [h.journal]
      case registry =>
        refine h.registry.update fun v v' hv hv' hmv => ⟨.inl rfl, fun hf => ?_⟩
        cases hk.symm.trans hv
        exact absurd hst ((Worker.stage_of_isFinished hf).2 event position)
    · have hne : ∀ event position, w.stage ≠ .handling event position := fun event position hs =>
        hst ⟨event, position, hs⟩
      have hstage := Worker.stage_of_state hm.state_eq
      rw [step_settle_of_ne hk hne, step_settle_of_ne hk' fun event position hs => hne event position (hstage ▸ hs)]
      exact h

/-- Each step keeps the systems alike, and puts an end to the loss if it subscribes the id or takes it out. -/
theorem step (h : s.Resembles id lost t) (store codec : Codec) (a : Action) :
    (s.step store codec a).Resembles id (lost && !concerns id a) (t.step store codec a) := by
  have hkeep {s' t' : System} (h' : s'.Resembles id lost t') : s'.Resembles id (lost && !false) t' := by
    rwa [Bool.not_false, Bool.and_true]
  cases a with
  | append call =>
    refine hkeep ?_
    rw [System.step, System.step, h.log]
    split
    · exact { h with log := rfl }
    · exact h
  | save subscriber position =>
    refine hkeep ?_
    rw [System.step, System.step, h.positions]
    exact { h with positions := rfl }
  | delete subscriber =>
    refine hkeep ?_
    rw [System.step, System.step, h.positions]
    exact { h with positions := rfl }
  | subscribe other start loads =>
    obtain ⟨-, hps, hr⟩ := h.registry.subscribe (load loads) (fun p => s.log.openFeed p) other start s.positions
    simp only [concerns, System.step, h.log, h.positions]
    constructor
    case log => exact rfl
    case positions => exact hps
    case journal => exact h.journal
    case registry => simpa using hr
  | unsubscribe other =>
    have hr := h.registry.release other
    simp only [concerns, System.step]
    exact { h with registry := by simpa using hr }
  | abandon =>
    simp only [concerns, System.step, Bool.not_true, Bool.and_false]
    exact { h with registry := h.registry.abandon }
  | poll k => exact hkeep (h.poll store codec k)
  | settle k verdict saves => exact hkeep (h.settle store codec k verdict saves)

theorem run (h : s.Resembles id lost t) (store codec : Codec) (later : List Action) :
    (later.foldl (System.step store codec) s).Resembles id (lost && !later.any (concerns id))
      (later.foldl (System.step store codec) t) := by
  induction later generalizing s t lost with
  | nil => simpa using h
  | cons a rest ih =>
    have hrest := ih (h.step store codec a)
    rwa [Bool.and_assoc, ← Bool.not_or] at hrest

end Resembles

/-! ## Registered numbers -/

/-- A step keeps the number of an id, or it subscribes the id or takes it out. -/
theorem registered_step_cases (store codec : Codec) (s : System) (a : Action) (id : String) :
    (s.step store codec a).registry.registered.get? id = s.registry.registered.get? id ∨
      concerns id a = true ∧ ∀ k, (s.step store codec a).registry.registered.get? id = some k →
        ∃ w, (s.step store codec a).registry.Owns id k w := by
  cases a with
  | append call =>
    rw [step]
    split <;> exact .inl rfl
  | subscribe other start loads =>
    by_cases ho : other = id
    · subst ho
      simp only [step, Registry.subscribe]
      split
      · exact .inl rfl
      · refine .inr ⟨by simp [concerns], fun k hk => ?_⟩
        split at hk
        · simp [NameMap.get?_erase] at hk
        · split at hk
          · simp [NameMap.get?_erase] at hk
          · rename_i feed hf
            simp only [Registry.spawn, NameMap.get?_insert, if_true, Option.some.injEq] at hk
            subst hk
            refine ⟨.start other feed, ?_, rfl⟩
            exact List.getElem?_concat_length
    · left
      simp only [step, Registry.subscribe]
      split
      · rfl
      · split
        · simp [NameMap.get?_erase, ho]
        · split
          · simp [NameMap.get?_erase, ho]
          · simp [Registry.spawn, NameMap.get?_insert, NameMap.get?_erase, ho]
  | unsubscribe other =>
    simp only [step, Registry.release]
    cases hk : s.registry.registered.get? other with
    | none => exact .inl rfl
    | some k =>
      by_cases ho : other = id
      · refine .inr ⟨by simp [concerns, ho], fun j hj => ?_⟩
        simp [Registry.update, NameMap.get?_erase, ho] at hj
      · left
        simp [Registry.update, NameMap.get?_erase, ho]
  | abandon =>
    refine .inr ⟨rfl, fun k hk => ?_⟩
    simp [step, Registry.registered_abandon] at hk
  | poll k =>
    simp only [step]
    split <;> exact .inl rfl
  | settle k verdict saves =>
    simp only [step]
    split
    · exact .inl rfl
    · split <;> exact .inl rfl
  | _ => exact .inl rfl

/-- A worker stays in its place, with its subscriber. -/
theorem exists_owns_step (ho : s.registry.Owns id k w) (store codec : Codec) (a : Action) :
    ∃ w', (s.step store codec a).registry.Owns id k w' := by
  obtain ⟨w', hw', hs⟩ := exists_worker_step ho.1 store codec a
  have hsub : w'.subscriber = w.subscriber := (congrArg Prod.fst hs).trans (subscriber_act codec s k a w)
  exact ⟨w', hw', hsub.trans ho.2⟩

theorem coherent_step (hc : s.registry.Coherent) (store codec : Codec) (a : Action) :
    (s.step store codec a).registry.Coherent := by
  intro id k hk
  rcases registered_step_cases store codec s a id with hold | ⟨-, hnew⟩
  · obtain ⟨w, ho⟩ := hc id k (hold ▸ hk)
    exact exists_owns_step ho store codec a
  · exact hnew k hk

theorem coherent_of_reachable {Allowed : System → Action → Prop} {log : EventLog} {positions : Positions}
    (hr : Reachable store codec Allowed (initial log positions) s) : s.registry.Coherent := by
  induction hr with
  | first => exact fun id k hk => by cases hk
  | step a _ _ ih => exact coherent_step ih store codec a

/-- An id keeps its worker as long as no action concerns it. -/
theorem registered_run (store codec : Codec) (s : System) {later : List Action}
    (h : later.any (concerns id) = false) :
    (later.foldl (step store codec) s).registry.registered.get? id = s.registry.registered.get? id := by
  induction later generalizing s with
  | nil => rfl
  | cons a rest ih =>
    obtain ⟨ha, hrest⟩ : concerns id a = false ∧ rest.any (concerns id) = false := by simpa using h
    rw [List.foldl_cons, ih _ hrest]
    exact (registered_step_cases store codec s a id).resolve_right fun hc => by simp [ha] at hc

/-- What has come to an end stays so. -/
theorem outcome?_run {outcome : Outcome} (h : s.registry.outcome? k = some outcome) (store codec : Codec)
    (later : List Action) : (later.foldl (step store codec) s).registry.outcome? k = some outcome := by
  induction later generalizing s with
  | nil => exact h
  | cons a rest ih =>
    refine ih ?_
    obtain ⟨w, hk, hw⟩ := Option.bind_eq_some_iff.1 h
    obtain ⟨w', hk', hs⟩ := exists_worker_step hk store codec a
    have hf : w.isFinished = true := Worker.isFinished_iff.2 ⟨outcome, hw⟩
    rw [act_of_isFinished codec s k a hf] at hs
    refine Option.bind_eq_some_iff.2 ⟨w', hk', ?_⟩
    rw [← hw, Worker.outcome?, Worker.outcome?, Worker.stage_of_state hs]

/-! ## What is lost -/

/-- Systems that answer alike, whatever they are asked about others than one id. -/
structure Alike (id : String) (s t : System) : Prop where
  log : t.log = s.log
  positions : t.positions = s.positions
  journal : t.journal = s.journal
  isRunning : ∀ other, t.registry.isRunning other = s.registry.isRunning other
  outcome : ∀ k, t.registry.outcome? k = s.registry.outcome? k
  release : ∀ other, other ≠ id → (t.registry.release other).1 = (s.registry.release other).1

theorem Resembles.alike (h : s.Resembles id lost t) : s.Alike id t where
  log := h.log
  positions := h.positions
  journal := h.journal
  isRunning := h.registry.isRunning_eq
  outcome := h.registry.outcome?_eq
  release _ hne := h.registry.release_eq fun hn => hne hn.2

/-- What two systems say about an id, of which only the first one still knows the worker with a number. -/
structure Lacks (id : String) (k : Nat) (outcome : Outcome) (s t : System) : Prop where
  ids : t.registry.ids = s.registry.ids.filter (· ≠ id)
  known : (s.registry.release id).1 = .ok k
  outcome : s.registry.outcome? k = some outcome
  unknown : (t.registry.release id).1 = .error (.notSubscribed id)

/-- **Subscriptions that fail** change nothing if the subscriber is running or not registered. Else they lose the
finished worker of the subscriber, but nothing more: whatever happens later, all is as if the subscription had not been
tried, except that the id is not registered, and its outcome is not to be had, until the id is subscribed again or
taken out. -/
theorem failed_subscription {log : EventLog} {positions : Positions} {start : StartAt} {loads : Bool}
    {e : SubscriptionError} (hr : Reachable store codec Any (initial log positions) s)
    (h : s.subscription id start loads = .error e) :
    ((s.registry.isRunning id = true ∨ s.registry.registered.get? id = none) ∧
        s.step store codec (.subscribe id start loads) = s) ∨
      ∃ k outcome, s.registry.registered.get? id = some k ∧ s.registry.outcome? k = some outcome ∧
        ∀ later : List Action,
          let s' := later.foldl (step store codec) s
          let t' := later.foldl (step store codec) (s.step store codec (.subscribe id start loads))
          s'.Alike id t' ∧
            if later.any (concerns id) then
              t'.registry.ids = s'.registry.ids ∧ (t'.registry.release id).1 = (s'.registry.release id).1
            else s'.Lacks id k outcome t' := by
  rcases Registry.subscribe_error_cases h with ⟨hrun, hres⟩ | ⟨hrun, hres⟩
  · left
    refine ⟨.inl hrun, ?_⟩
    simp only [step, hres]
  have hstep : s.step store codec (.subscribe id start loads) =
      { s with registry := { s.registry with registered := s.registry.registered.erase id } } := by
    simp only [step, hres, load]
  rw [hstep]
  cases hk : s.registry.registered.get? id with
  | none =>
    left
    refine ⟨.inr rfl, ?_⟩
    rw [Registry.erase_registered_of_none hk]
  | some k =>
    right
    obtain ⟨w, hw, -⟩ := coherent_of_reachable hr id k hk
    have hf : w.isFinished = true := by simpa [Registry.isRunning, Registry.worker?, hk, hw] using hrun
    obtain ⟨outcome, ho⟩ := Worker.isFinished_iff.1 hf
    have hout : s.registry.outcome? k = some outcome := by rw [Registry.outcome?, hw]; exact ho
    refine ⟨k, outcome, rfl, hout, fun later => ?_⟩
    have hstart : s.Resembles id true
        { s with registry := { s.registry with registered := s.registry.registered.erase id } } :=
      ⟨rfl, rfl, rfl, Registry.resembles_erase hk hw hf⟩
    have hrun := hstart.run store codec later
    refine ⟨hrun.alike, ?_⟩
    split
    · rename_i hc
      rw [hc] at hrun
      exact ⟨hrun.registry.ids_eq, hrun.registry.release_eq (by simp)⟩
    · rename_i hc
      rw [Bool.not_eq_true] at hc
      rw [hc] at hrun
      have hknown := (registered_run store codec s hc).trans hk
      constructor
      case ids => exact hrun.registry.ids_filter
      case known => simp only [Registry.release, hknown]
      case outcome => exact outcome?_run hout store codec later
      case unknown =>
        have hnone := hrun.registry.registered id
        rw [if_pos ⟨rfl, rfl⟩] at hnone
        simp only [Registry.release, hnone]

/-- The handler of a subscriber has failed. -/
def stalled : System := after (firstNote ++ [.settle 0 (.failure "no") true])

theorem reachable_stalled : Reachable blanks blanks Any (initial .empty .empty) stalled :=
  reachable_firstNote.any.step (.settle 0 (.failure "no") true) trivial

theorem failed_subscription_stalled :
    (Reachable blanks blanks Any (initial .empty .empty) stalled ∧
        stalled.subscription "a" .now false = .error (.store outage)) ∧
      stalled.Lacks "a" 0 (.error (.handler "a" "s" 0 "no"))
        (stalled.step blanks blanks (.subscribe "a" .now false)) := by
  have h : stalled.subscription "a" .now false = .error (.store outage) := by with_unfolding_all rfl
  have hrun : stalled.registry.isRunning "a" = false := by with_unfolding_all rfl
  have hk : stalled.registry.registered.get? "a" = some 0 := by with_unfolding_all rfl
  have ho : stalled.registry.outcome? 0 = some (.error (.handler "a" "s" 0 "no")) := by with_unfolding_all rfl
  refine ⟨⟨reachable_stalled, h⟩, ?_⟩
  rcases failed_subscription reachable_stalled h with ⟨hnone, -⟩ | ⟨k, outcome, hk', ho', hlater⟩
  · simp [hrun, hk] at hnone
  · obtain rfl : 0 = k := Option.some.inj (hk.symm.trans hk')
    obtain rfl := Option.some.inj (ho.symm.trans ho')
    exact (hlater []).2

/-- A subscription for which no feed can be opened at the stored position does away with the error that had stalled the
subscriber. -/
theorem stalled_forgotten :
    let s := stalled.step blanks blanks (.save "a" ⟨.string "?", 0⟩)
    let t := s.step blanks blanks (.subscribe "a" .now true)
    Reachable blanks blanks Any (initial .empty .empty) s ∧
      s.subscription "a" .now true = .error (.store (.invalidToken (.notAnIndex (.string "?")))) ∧
      s.registry.ids = ["a"] ∧ (s.registry.release "a").1 = .ok 0 ∧
      s.registry.outcome? 0 = some (.error (.handler "a" "s" 0 "no")) ∧
      t.registry.ids = [] ∧ (t.registry.release "a").1 = .error (.notSubscribed "a") := by
  refine ⟨reachable_stalled.step _ trivial, ?_, ?_, ?_, ?_, ?_, ?_⟩
  all_goals with_unfolding_all rfl

end System

end Chronicle
