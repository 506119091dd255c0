import Chronicle.Proofs.Store.PositionRuns
import Chronicle.Proofs.Subscription.Refusal

/-!
# The part of one subscriber

The position of one subscriber (`Positions.only`), and the part of a registry with their workers alone, where these have
the numbers that they have among each other (`Registry.rank`, `Registry.only`). What is done to the subscriber's own
position or workers is done to the part (`Positions.only_save`, `Registry.only_update`, `Registry.only_enroll`,
`Registry.only_release`), what is done to those of others is not, and dropping the registry drops the part
(`Registry.only_abandon`).
-/

namespace Chronicle

/-! ## Parts of lists -/

section

variable {α : Type} {p : α → Bool} {l : List α} {j k : Nat} {a : α} {f : α → α}

/-- An element that is kept stands behind those that are kept of the ones before it. -/
theorem getElem?_filter_countP (h : l[k]? = some a) (hp : p a = true) :
    (l.filter p)[(l.take k).countP p]? = some a := by
  induction l generalizing k with
  | nil => cases h
  | cons b l ih =>
    cases k with
    | zero =>
      cases h
      simp [hp]
    | succ k => cases hb : p b <;> simp [hb, ih h]

theorem countP_take_lt (h : l[j]? = some a) (hp : p a = true) (hjk : j < k) :
    (l.take j).countP p < (l.take k).countP p := by
  have hj : (l.take (j + 1)).countP p = (l.take j).countP p + 1 := by
    rw [List.take_add_one, h, List.countP_append]
    simp [hp]
  have hle : (l.take (j + 1)).countP p ≤ (l.take k).countP p := (List.take_sublist_take_left hjk).countP_le
  omega

theorem countP_take_modify (h : l[k]? = some a) (hf : p (f a) = p a) (j : Nat) :
    ((l.modify k f).take j).countP p = (l.take j).countP p := by
  induction l generalizing k j with
  | nil => simp
  | cons b l ih =>
    cases j with
    | zero => simp
    | succ j =>
      cases k with
      | zero =>
        cases h
        simp [List.countP_cons, hf]
      | succ k => simp [List.countP_cons, ih h]

theorem filter_modify_of_pos (h : l[k]? = some a) (hp : p a = true) (hf : p (f a) = true) :
    (l.modify k f).filter p = (l.filter p).modify ((l.take k).countP p) f := by
  induction l generalizing k with
  | nil => cases h
  | cons b l ih =>
    cases k with
    | zero =>
      cases h
      simp [hp, hf]
    | succ k => cases hb : p b <;> simp [hb, ih h]

theorem filter_modify_of_neg (h : l[k]? = some a) (hp : p a = false) (hf : p (f a) = false) :
    (l.modify k f).filter p = l.filter p := by
  induction l generalizing k with
  | nil => cases h
  | cons b l ih =>
    cases k with
    | zero =>
      cases h
      simp [hp, hf]
    | succ k => simp [List.filter_cons, ih h]

end

/-! ## Parts of maps and positions -/

theorem Fields.get?_filter {α : Type} (name other : String) (fs : List (String × α)) :
    get? other (fs.filter fun f => f.1 = name) = if name = other then get? other fs else none := by
  induction fs with
  | nil => simp [get?]
  | cons f rest ih =>
    obtain ⟨k, v⟩ := f
    by_cases hk : k = name
    · rw [List.filter_cons_of_pos (by simpa using hk), get?, get?, ih]
      by_cases ho : name = other <;> simp [hk, ho]
    · rw [List.filter_cons_of_neg (by simpa using hk), get?, ih]
      by_cases ho : name = other
      · rw [if_pos ho, if_pos ho, if_neg (ho ▸ hk)]
      · rw [if_neg ho, if_neg ho]

namespace NameMap

variable {α β : Type}

/-- What a map says of one name. -/
def only (name : String) (m : NameMap α) : NameMap α := ⟨m.entries.filter fun e => e.1 = name, m.sorted.filter _⟩

theorem get?_only (m : NameMap α) (name other : String) :
    (m.only name).get? other = if name = other then m.get? other else none := by
  rw [get?_eq, get?_eq]
  exact Fields.get?_filter name other m.entries

theorem get?_mapValues (f : α → β) (m : NameMap α) (name : String) :
    (m.mapValues f).get? name = (m.get? name).map f := by
  rw [get?_eq, get?_eq]
  exact Fields.get?_map f m.entries name

end NameMap

namespace Positions

variable {id other : String} {ps ps' : Positions}

/-- The position of one subscriber. -/
def only (id : String) (ps : Positions) : Positions := ⟨ps.saved.only id⟩

theorem load_only (ps : Positions) (id other : String) :
    (ps.only id).load other = if id = other then ps.load other else none :=
  NameMap.get?_only ps.saved id other

theorem load_only_self (ps : Positions) (id : String) : (ps.only id).load id = ps.load id := by
  rw [load_only, if_pos rfl]

/-- Positions that are loaded alike are the same. -/
theorem ext_load (h : ∀ id, ps.load id = ps'.load id) : ps = ps' := congrArg Positions.mk (NameMap.ext_get? h)

theorem only_eq (h : ps'.load id = ps.load id) : ps'.only id = ps.only id := by
  refine ext_load fun other => ?_
  rw [load_only, load_only]
  split
  · rename_i ho
    subst ho
    exact h
  · rfl

theorem only_save (id : String) (p : Position) (ps : Positions) :
    ((ps.only id).save id p).1 = (ps.save id p).1 ∧ ((ps.only id).save id p).2 = (ps.save id p).2.only id := by
  constructor
  · simp only [save, load_only_self]
    cases ps.load id with
    | none => rfl
    | some q => dsimp only; split <;> rfl
  · refine ext_load fun other => ?_
    by_cases ho : id = other
    · subst ho
      rw [load_save_self, load_only_self, load_only_self, load_save_self]
    · rw [load_save_of_ne ho, load_only, load_only, if_neg ho, if_neg ho]

theorem only_delete (id : String) (ps : Positions) :
    ((ps.only id).delete id).1 = (ps.delete id).1 ∧ ((ps.only id).delete id).2 = (ps.delete id).2.only id := by
  constructor
  · simp only [delete, load_only_self]
  · refine ext_load fun other => ?_
    by_cases ho : id = other
    · subst ho
      rw [load_delete_self, load_only_self, load_delete_self]
    · rw [load_delete_of_ne ho, load_only, load_only, if_neg ho, if_neg ho]

end Positions

/-! ## Parts of a registry -/

namespace Registry

variable {r : Registry} {id other : String} {j k : Nat} {v w : Worker} {f : Worker → Worker}

/-- The number that a worker has among a subscriber's. -/
def rank (id : String) (r : Registry) (k : Nat) : Nat := (r.workers.take k).countP fun w => w.subscriber = id

/-- A subscriber's workers, and the number of the one that is registered. -/
def only (id : String) (r : Registry) : Registry where
  workers := r.workers.filter fun w => w.subscriber = id
  registered := (r.registered.only id).mapValues (r.rank id)

/-- Whose worker has a number. -/
def owner? (r : Registry) (k : Nat) : Option String := (r.workers[k]?).map Worker.subscriber

theorem owner?_eq_some_iff : r.owner? k = some id ↔ ∃ w, r.Owns id k w := Option.map_eq_some_iff

theorem Owns.only (h : r.Owns id k w) : (r.only id).Owns id (r.rank id k) w :=
  ⟨getElem?_filter_countP h.1 (decide_eq_true h.2), h.2⟩

theorem Owns.rank_inj (h : r.Owns id j v) (h' : r.Owns id k w) : r.rank id j = r.rank id k ↔ j = k := by
  constructor
  · intro he
    rcases Nat.lt_trichotomy j k with hlt | rfl | hlt
    · exact absurd he (Nat.ne_of_lt (countP_take_lt h.1 (decide_eq_true h.2) hlt))
    · rfl
    · exact absurd he (Nat.ne_of_gt (countP_take_lt h'.1 (decide_eq_true h'.2) hlt))
  · rintro rfl
    rfl

theorem get?_registered_only (r : Registry) (id other : String) :
    (r.only id).registered.get? other = if id = other then (r.registered.get? other).map (r.rank id) else none := by
  rw [only, NameMap.get?_mapValues, NameMap.get?_only]
  split <;> rfl

theorem isRunning_only (hc : r.Coherent) (id : String) : (r.only id).isRunning id = r.isRunning id := by
  rw [isRunning, isRunning, worker?, worker?, get?_registered_only, if_pos rfl]
  cases hk : r.registered.get? id with
  | none => rfl
  | some k =>
    obtain ⟨w, ho⟩ := hc id k hk
    show ((r.only id).workers[r.rank id k]?).any _ = (r.workers[k]?).any _
    rw [ho.only.1, ho.1]

theorem mem_ids_iff : id ∈ r.ids ↔ r.registered.get? id ≠ none := by
  rw [NameMap.get?_eq, Ne, Fields.get?_eq_none_iff, not_not]
  rfl

theorem mem_ids_only_iff (id : String) (r : Registry) : id ∈ (r.only id).ids ↔ id ∈ r.ids := by
  rw [mem_ids_iff, mem_ids_iff, get?_registered_only, if_pos rfl, Ne, Ne, Option.map_eq_none_iff]

/-! ### Changes -/

/-- The ranks do not depend on what the workers do. -/
theorem rank_update (hk : r.workers[k]? = some w) (hf : (f w).subscriber = w.subscriber) (id : String) :
    (r.update k f).rank id = r.rank id :=
  funext fun j => countP_take_modify hk (by rw [hf]) j

/-- A change of the subscriber's own worker is seen. -/
theorem only_update (ho : r.Owns id k w) (hf : (f w).subscriber = w.subscriber) :
    (r.update k f).only id = (r.only id).update (r.rank id k) f := by
  have hworkers : (r.workers.modify k f).filter (fun w => w.subscriber = id) =
      (r.workers.filter fun w => w.subscriber = id).modify (r.rank id k) f :=
    filter_modify_of_pos ho.1 (decide_eq_true ho.2) (decide_eq_true (hf.trans ho.2))
  rw [only, rank_update ho.1 hf, only, update, update, hworkers]

/-- A change of another subscriber's worker is not seen. -/
theorem only_update_of_ne (hk : r.workers[k]? = some w) (hw : w.subscriber ≠ id)
    (hf : (f w).subscriber = w.subscriber) : (r.update k f).only id = r.only id := by
  have hworkers : (r.workers.modify k f).filter (fun w => w.subscriber = id) =
      r.workers.filter fun w => w.subscriber = id :=
    filter_modify_of_neg hk (decide_eq_false hw) (decide_eq_false (hf ▸ hw))
  rw [only, rank_update hk hf, only, update, hworkers]

/-- The registry without an id. -/
def forget (id : String) (r : Registry) : Registry := { r with registered := r.registered.erase id }

theorem only_forget (id : String) (r : Registry) : (r.forget id).only id = (r.only id).forget id := by
  refine congrArg (Registry.mk _) (NameMap.ext_get? fun name => ?_)
  rw [NameMap.get?_mapValues, NameMap.get?_only, NameMap.get?_erase, forget, NameMap.get?_erase,
    get?_registered_only]
  grind

theorem only_forget_of_ne (h : other ≠ id) (r : Registry) : (r.forget other).only id = r.only id := by
  refine congrArg (Registry.mk _) (NameMap.ext_get? fun name => ?_)
  rw [NameMap.get?_mapValues, NameMap.get?_only, forget, NameMap.get?_erase, NameMap.get?_mapValues,
    NameMap.get?_only]
  have hrank : rank id { r with registered := r.registered.erase other } = r.rank id := rfl
  grind

theorem Coherent.forget (hc : r.Coherent) (id : String) : (r.forget id).Coherent := by
  intro name k hk
  rw [Registry.forget, NameMap.get?_erase] at hk
  split at hk
  · cases hk
  · exact hc name k hk

theorem rank_spawn (h : k ≤ r.workers.length) (feed : Feed) : (r.spawn other feed).rank id k = r.rank id k := by
  rw [rank, spawn, List.take_append_of_le_length h, rank]

theorem rank_length (id : String) (r : Registry) : r.rank id r.workers.length = (r.only id).workers.length := by
  rw [rank, List.take_length, only, List.countP_eq_length_filter]

theorem only_spawn (id : String) (feed : Feed) (r : Registry) :
    (r.spawn id feed).only id = (r.only id).spawn id feed := by
  have hworkers : (r.workers ++ [Worker.start id feed]).filter (fun w => w.subscriber = id) =
      (r.workers.filter fun w => w.subscriber = id) ++ [Worker.start id feed] := by
    simp [Worker.start]
  have hregistered : ((r.spawn id feed).registered.only id).mapValues ((r.spawn id feed).rank id) =
      (r.only id).registered.insert id (r.only id).workers.length := by
    refine NameMap.ext_get? fun name => ?_
    rw [NameMap.get?_mapValues, NameMap.get?_only, spawn, NameMap.get?_insert, NameMap.get?_insert,
      get?_registered_only]
    have hrank : ((r.spawn id feed).rank id) r.workers.length = (r.only id).workers.length := by
      rw [rank_spawn (Nat.le_refl _), rank_length]
    split
    · exact congrArg some hrank
    · rfl
  rw [only, hregistered, spawn, spawn]
  exact congrArg (fun ws => Registry.mk ws _) hworkers

theorem only_spawn_of_ne (hc : r.Coherent) (h : other ≠ id) (feed : Feed) :
    (r.spawn other feed).only id = r.only id := by
  have hworkers : (r.workers ++ [Worker.start other feed]).filter (fun w => w.subscriber = id) =
      r.workers.filter fun w => w.subscriber = id := by
    simp [Worker.start, h]
  have hregistered : ((r.spawn other feed).registered.only id).mapValues ((r.spawn other feed).rank id) =
      (r.only id).registered := by
    refine NameMap.ext_get? fun name => ?_
    rw [NameMap.get?_mapValues, NameMap.get?_only, get?_registered_only]
    split
    · rename_i hn
      subst hn
      rw [spawn, NameMap.get?_insert, if_neg h]
      cases hk : r.registered.get? id with
      | none => rfl
      | some k =>
        obtain ⟨w, ho⟩ := hc id k hk
        exact congrArg some (rank_spawn (Nat.le_of_lt ho.lt) feed)
    · rfl
  rw [only, hregistered, only]
  exact congrArg (fun ws => Registry.mk ws _) hworkers

theorem Similar.rank_eq {r' : Registry} (h : r.Similar r') (id : String) : r'.rank id = r.rank id := by
  have hrank (q : Registry) (k : Nat) : q.rank id k = ((q.workers.map Worker.state).take k).countP fun x => x.1 = id := by
    rw [← List.map_take, List.countP_map]
    rfl
  funext k
  rw [hrank, hrank, h.map_state]

/-! ### Calls -/

theorem release_eq (r : Registry) (id : String) :
    r.release id =
      match r.registered.get? id with
      | some k => (.ok k, (r.forget id).update k .stop)
      | none => (.error (.notSubscribed id), r) := rfl

theorem only_release (hc : r.Coherent) (id : String) :
    ((r.only id).release id).1 = (r.release id).1.map (r.rank id) ∧
      ((r.only id).release id).2 = (r.release id).2.only id := by
  rw [release_eq, release_eq, get?_registered_only, if_pos rfl]
  cases hk : r.registered.get? id with
  | none => exact ⟨rfl, rfl⟩
  | some k =>
    obtain ⟨w, ho⟩ := hc id k hk
    have ho' : (r.forget id).Owns id k w := ho
    refine ⟨rfl, ?_⟩
    show ((r.only id).forget id).update (r.rank id k) .stop = ((r.forget id).update k .stop).only id
    rw [only_update ho' rfl, only_forget]
    rfl

theorem only_release_of_ne (hc : r.Coherent) (h : other ≠ id) : (r.release other).2.only id = r.only id := by
  rw [release_eq]
  cases hk : r.registered.get? other with
  | none => rfl
  | some k =>
    obtain ⟨w, ho⟩ := hc other k hk
    have ho' : (r.forget other).Owns other k w := ho
    show ((r.forget other).update k .stop).only id = r.only id
    rw [only_update_of_ne ho'.1 (ho.2 ▸ h) rfl, only_forget_of_ne h]

/-- Of the workers that are told to stop, a subscriber sees their own. -/
theorem only_stopAll {entries : List (String × Nat)} (h : ∀ e ∈ entries, ∃ w, r.Owns e.1 e.2 w) (id : String) :
    (entries.foldl (fun r e => r.update e.2 .stop) r).only id =
      ((entries.filter fun e => e.1 = id).map fun e => (e.1, r.rank id e.2)).foldl
        (fun r e => r.update e.2 .stop) (r.only id) := by
  induction entries generalizing r with
  | nil => rfl
  | cons e rest ih =>
    obtain ⟨w, ho⟩ := h e List.mem_cons_self
    have hrank : (r.update e.2 .stop).rank id = r.rank id := rank_update ho.1 rfl id
    have hrest : ∀ x ∈ rest, ∃ w, (r.update e.2 .stop).Owns x.1 x.2 w := by
      intro x hx
      obtain ⟨v, hv⟩ := h x (List.mem_cons_of_mem _ hx)
      obtain ⟨v', hv', -⟩ := (similar_update_stop r e.2).symm.owns hv
      exact ⟨v', hv'⟩
    rw [List.foldl_cons, ih hrest, hrank]
    by_cases he : e.1 = id
    · rw [List.filter_cons_of_pos (by simpa using he), List.map_cons, List.foldl_cons, only_update (he ▸ ho) rfl]
    · rw [List.filter_cons_of_neg (by simpa using he), only_update_of_ne ho.1 (ho.2 ▸ he) rfl]

theorem only_abandon (hc : r.Coherent) (id : String) : r.abandon.only id = (r.only id).abandon := by
  refine only_stopAll (r := { r with registered := .empty }) (fun e he => ?_) id
  exact hc e.1 e.2 ((NameMap.get?_eq _ _).trans (Fields.get?_of_mem r.registered.distinct_entries he))

/-- Subscribes an id that is not running, with the feed that could be opened for it. -/
def enroll (fed : Except StoreError Feed) (id : String) (r : Registry) : Outcome × Registry :=
  if r.isRunning id then (.error (.alreadySubscribed id), r)
  else
    match fed with
    | .error e => (.error (.store e), r.forget id)
    | .ok feed => (.ok (), (r.forget id).spawn id feed)

theorem rank_enroll (h : k ≤ r.workers.length) (fed : Except StoreError Feed) :
    (r.enroll fed other).2.rank id k = r.rank id k := by
  unfold enroll
  split
  · rfl
  · cases fed with
    | error e => rfl
    | ok feed => exact rank_spawn (r := r.forget other) h feed

theorem only_enroll (hc : r.Coherent) (fed : Except StoreError Feed) (id : String) :
    ((r.only id).enroll fed id).1 = (r.enroll fed id).1 ∧
      ((r.only id).enroll fed id).2 = (r.enroll fed id).2.only id := by
  unfold enroll
  rw [isRunning_only hc]
  split
  · exact ⟨rfl, rfl⟩
  · cases fed with
    | error e => exact ⟨rfl, (only_forget id r).symm⟩
    | ok feed =>
      refine ⟨rfl, ?_⟩
      show ((r.only id).forget id).spawn id feed = ((r.forget id).spawn id feed).only id
      rw [only_spawn, only_forget]

theorem only_enroll_of_ne (hc : r.Coherent) (h : other ≠ id) (fed : Except StoreError Feed) :
    (r.enroll fed other).2.only id = r.only id := by
  unfold enroll
  split
  · rfl
  · cases fed with
    | error e => exact only_forget_of_ne h r
    | ok feed => exact (only_spawn_of_ne (hc.forget other) h feed).trans (only_forget_of_ne h r)

end Registry

end Chronicle
