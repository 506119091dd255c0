import Chronicle.Fields
import Chronicle.NameMap

/-!
# Fields and names, whatever their order

Fields of distinct names are determined by what `Fields.get?` says of each name, up to order. Taking a field out, with
or without moving the last one into the gap, hides its name and nothing else (`get?_erase`, `get?_swapErase`), and a
`NameMap` is determined by its values (`NameMap.ext_get?`), so that it can be rebuilt from its entries in any order
(`NameMap.get?_ofList`).
-/

namespace Chronicle

namespace Fields

variable {α β : Type} {fs gs : List (String × α)} {name other : String} {value : α}

theorem Distinct.tail {f : String × α} (h : Distinct (f :: fs)) : Distinct fs := (List.nodup_cons.1 h).2

theorem Distinct.not_mem {f : String × α} (h : Distinct (f :: fs)) : f.1 ∉ names fs := (List.nodup_cons.1 h).1

theorem Distinct.perm (h : Distinct fs) (hp : fs.Perm gs) : Distinct gs := (hp.map Prod.fst).nodup_iff.1 h

theorem mem_names_of_mem (h : (name, value) ∈ fs) : name ∈ names fs := List.mem_map_of_mem (f := Prod.fst) h

theorem mem_of_get? (h : get? name fs = some value) : (name, value) ∈ fs := by
  induction fs with
  | nil => cases h
  | cons f rest ih =>
    obtain ⟨k, v⟩ := f
    rw [get?] at h
    split at h
    · rename_i hk
      cases h
      subst hk
      exact List.mem_cons_self
    · exact List.mem_cons_of_mem _ (ih h)

theorem get?_eq_none_iff : get? name fs = none ↔ name ∉ names fs := by
  induction fs with
  | nil => simp [get?, names]
  | cons f rest ih =>
    obtain ⟨k, v⟩ := f
    rw [get?, names, List.map_cons, List.mem_cons, not_or, ← names, ← ih]
    split
    · rename_i hk
      simp [hk]
    · rename_i hk
      simp [Ne.symm hk]

theorem get?_of_mem (hd : Distinct fs) (h : (name, value) ∈ fs) : get? name fs = some value := by
  induction fs with
  | nil => cases h
  | cons f rest ih =>
    obtain ⟨k, v⟩ := f
    rw [get?]
    rcases List.mem_cons.1 h with h | h
    · cases h
      rw [if_pos rfl]
    · have hk : k ≠ name := fun hk => hd.not_mem (hk ▸ mem_names_of_mem h)
      rw [if_neg hk, ih hd.tail h]

/-- Fields of distinct names in another order hold the same values. -/
theorem get?_perm (hd : Distinct fs) (hp : fs.Perm gs) (name : String) : get? name fs = get? name gs := by
  cases h : get? name fs with
  | some v => exact (get?_of_mem (hd.perm hp) (hp.subset (mem_of_get? h))).symm
  | none =>
    refine (get?_eq_none_iff.2 fun hm => ?_).symm
    exact get?_eq_none_iff.1 h ((hp.map Prod.fst).symm.subset hm)

theorem Distinct.nodup (h : Distinct fs) : fs.Nodup :=
  List.Pairwise.of_map Prod.fst (fun _ _ hne => mt (congrArg Prod.fst) hne) h

/-- Fields of distinct names that hold the same values are the same up to order. -/
theorem perm_of_get? (hd : Distinct fs) (hd' : Distinct gs) (h : ∀ name, get? name fs = get? name gs) : fs.Perm gs := by
  refine (List.perm_ext_iff_of_nodup hd.nodup hd'.nodup).2 fun f => ⟨fun hf => ?_, fun hf => ?_⟩
  · exact mem_of_get? ((h f.1).symm.trans (get?_of_mem hd hf))
  · exact mem_of_get? ((h f.1).trans (get?_of_mem hd' hf))

theorem get?_append (fs gs : List (String × α)) (name : String) :
    get? name (fs ++ gs) = (get? name fs).or (get? name gs) := by
  induction fs with
  | nil => rfl
  | cons f rest ih =>
    obtain ⟨k, v⟩ := f
    rw [List.cons_append, get?, get?, ih]
    split <;> rfl

theorem not_mem_names_append : name ∉ names (fs ++ gs) ↔ name ∉ names fs ∧ name ∉ names gs := by
  rw [names, List.map_append, List.mem_append, not_or]
  rfl

theorem get?_map (f : α → β) (fs : List (String × α)) (name : String) :
    get? name (fs.map fun x => (x.1, f x.2)) = (get? name fs).map f := by
  induction fs with
  | nil => rfl
  | cons x rest ih =>
    obtain ⟨k, v⟩ := x
    rw [List.map_cons, get?, get?, ih]
    split <;> rfl

theorem names_map (f : α → β) (fs : List (String × α)) : names (fs.map fun x => (x.1, f x.2)) = names fs := by
  simp [names, Function.comp_def]

/-! ## Setting -/

theorem map_set (f : α → β) (name : String) (value : α) (fs : List (String × α)) :
    (set name value fs).map (fun x => (x.1, f x.2)) = set name (f value) (fs.map fun x => (x.1, f x.2)) := by
  induction fs with
  | nil => rfl
  | cons x rest ih =>
    obtain ⟨k, v⟩ := x
    simp only [set, List.map_cons]
    split
    · rfl
    · rw [List.map_cons, ih]

theorem set_set (name : String) (value value' : α) (fs : List (String × α)) :
    set name value' (set name value fs) = set name value' fs := by
  induction fs with
  | nil => simp [set]
  | cons x rest ih =>
    obtain ⟨k, v⟩ := x
    by_cases hk : k = name
    · simp [set, hk]
    · simp [set, hk, ih]

theorem mem_set {f : String × α} (h : f ∈ set name value fs) : f = (name, value) ∨ f ∈ fs := by
  induction fs with
  | nil => exact .inl (List.mem_singleton.1 h)
  | cons x rest ih =>
    obtain ⟨k, v⟩ := x
    rw [set] at h
    split at h
    · rename_i hk
      rcases List.mem_cons.1 h with rfl | h
      · exact .inl (by rw [hk])
      · exact .inr (List.mem_cons_of_mem _ h)
    · rcases List.mem_cons.1 h with rfl | h
      · exact .inr List.mem_cons_self
      · exact (ih h).imp_right (List.mem_cons_of_mem _)

theorem mem_of_mem_ofList {f : String × α} (h : f ∈ ofList fs) : f ∈ fs := by
  suffices ∀ acc, f ∈ fs.foldl (fun gs g => set g.1 g.2 gs) acc → f ∈ acc ∨ f ∈ fs from
    (this [] h).resolve_left List.not_mem_nil
  clear h
  induction fs with
  | nil => exact fun acc h => .inl h
  | cons g rest ih =>
    intro acc h
    rcases ih _ h with h | h
    · rcases mem_set h with rfl | h
      · exact .inr List.mem_cons_self
      · exact .inl h
    · exact .inr (List.mem_cons_of_mem _ h)

/-- Setting fields of other names leaves a field alone. -/
theorem get?_foldl_set_of_not_mem (h : name ∉ names gs) (fs : List (String × α)) :
    get? name (gs.foldl (fun acc f => set f.1 f.2 acc) fs) = get? name fs := by
  induction gs generalizing fs with
  | nil => rfl
  | cons g gs ih =>
    obtain ⟨hg, hgs⟩ := not_or.1 (mt List.mem_cons.2 h)
    rw [List.foldl_cons, ih hgs, get?_set, if_neg (Ne.symm hg)]

/-- Setting a field of the first part leaves the second part alone. -/
theorem set_append (h : name ∈ names fs) : set name value (fs ++ gs) = set name value fs ++ gs := by
  induction fs with
  | nil => cases h
  | cons x rest ih =>
    obtain ⟨k, v⟩ := x
    rw [List.cons_append, set, set]
    split
    · rfl
    · rename_i hk
      rcases List.mem_cons.1 h with h | h
      · exact absurd h.symm hk
      · rw [ih h, List.cons_append]

/-! ## Taking out -/

theorem erase_of_not_mem (h : name ∉ names fs) : erase name fs = fs := by
  induction fs with
  | nil => rfl
  | cons x rest ih =>
    obtain ⟨k, v⟩ := x
    obtain ⟨hk, hr⟩ := not_or.1 (mt List.mem_cons.2 h)
    rw [erase, if_neg (Ne.symm hk), ih hr]

/-- A field is taken out from wherever it stands. -/
theorem erase_middle (h : name ∉ names fs) : erase name (fs ++ (name, value) :: gs) = fs ++ gs := by
  induction fs with
  | nil => simp [erase]
  | cons x rest ih =>
    obtain ⟨k, v⟩ := x
    obtain ⟨hk, hr⟩ := not_or.1 (mt List.mem_cons.2 h)
    rw [List.cons_append, erase, if_neg (Ne.symm hk), ih hr, List.cons_append]

theorem get?_erase_of_ne {other : String} (h : name ≠ other) : get? other (erase name fs) = get? other fs := by
  induction fs with
  | nil => rfl
  | cons x rest ih =>
    obtain ⟨k, v⟩ := x
    rw [erase]
    by_cases hk : k = name
    · rw [if_pos hk, get?, if_neg (hk ▸ h)]
    · rw [if_neg hk, get?, get?, ih]

theorem get?_erase (hd : Distinct fs) (name other : String) :
    get? other (erase name fs) = if name = other then none else get? other fs := by
  by_cases ho : name = other
  · subst ho
    rw [if_pos rfl, get?_eq_none_iff]
    induction fs with
    | nil => exact List.not_mem_nil
    | cons x rest ih =>
      obtain ⟨k, v⟩ := x
      rw [erase]
      by_cases hk : k = name
      · rw [if_pos hk]
        exact hk ▸ hd.not_mem
      · rw [if_neg hk]
        exact List.not_mem_cons_of_ne_of_not_mem (Ne.symm hk) (ih hd.tail)
  · rw [if_neg ho, get?_erase_of_ne ho]

/-- Setting a field does the same in any order. -/
theorem set_perm (hd : Distinct fs) (hp : fs.Perm gs) (name : String) (value : α) :
    (set name value fs).Perm (set name value gs) := by
  refine perm_of_get? (hd.set name value) ((hd.perm hp).set name value) fun other => ?_
  rw [get?_set, get?_set, get?_perm hd hp]

/-- Taking a field out does the same in any order. -/
theorem erase_perm (hd : Distinct fs) (hp : fs.Perm gs) (name : String) : (erase name fs).Perm (erase name gs) := by
  refine perm_of_get? (hd.erase name) ((hd.perm hp).erase name) fun other => ?_
  rw [get?_erase hd, get?_erase (hd.perm hp), get?_perm hd hp]

theorem mem_of_mem_erase {f : String × α} (h : f ∈ erase name fs) : f ∈ fs := by
  induction fs with
  | nil => cases h
  | cons x rest ih =>
    obtain ⟨k, v⟩ := x
    rw [erase] at h
    split at h
    · exact List.mem_cons_of_mem _ h
    · rcases List.mem_cons.1 h with rfl | h
      · exact List.mem_cons_self
      · exact List.mem_cons_of_mem _ (ih h)

theorem lastFirst_perm (fs : List (String × α)) : (lastFirst fs).Perm fs := by
  cases fs with
  | nil => exact .nil
  | cons f rest =>
    have h := List.dropLast_concat_getLast (show f :: rest ≠ [] by simp)
    rw [lastFirst]
    refine List.Perm.trans ?_ (.of_eq h)
    exact (List.perm_append_singleton _ _).symm

theorem swapErase_perm (name : String) (fs : List (String × α)) : (swapErase name fs).Perm (erase name fs) := by
  induction fs with
  | nil => exact .nil
  | cons x rest ih =>
    obtain ⟨k, v⟩ := x
    rw [swapErase, erase]
    split
    · exact lastFirst_perm rest
    · exact ih.cons _

theorem Distinct.swapErase (h : Distinct fs) (name : String) : Distinct (swapErase name fs) :=
  (h.erase name).perm (swapErase_perm name fs).symm

theorem get?_swapErase (hd : Distinct fs) (name other : String) :
    get? other (swapErase name fs) = if name = other then none else get? other fs := by
  rw [get?_perm (hd.swapErase name) (swapErase_perm name fs), get?_erase hd]

end Fields

namespace NameMap

variable {α : Type}

theorem lookup_eq (name : String) (entries : List (String × α)) : lookup name entries = Fields.get? name entries := by
  induction entries with
  | nil => rfl
  | cons f rest ih => rw [lookup, Fields.get?, ih]

theorem get?_eq (m : NameMap α) (name : String) : m.get? name = Fields.get? name m.entries := lookup_eq name m.entries

theorem distinct_entries (m : NameMap α) : Fields.Distinct m.entries :=
  List.pairwise_map.2 (m.sorted.imp fun h heq => by rw [heq] at h; exact String.lt_irrefl _ h)

/-- A map is determined by its values. -/
theorem ext_get? {m m' : NameMap α} (h : ∀ name, m.get? name = m'.get? name) : m = m' := by
  have hperm : m.entries.Perm m'.entries :=
    Fields.perm_of_get? m.distinct_entries m'.distinct_entries fun name => by rw [← get?_eq, h, get?_eq]
  have heq : m.entries = m'.entries := hperm.eq_of_pairwise (fun a b _ _ hab hba =>
    absurd (String.lt_trans hab hba) (String.lt_irrefl _)) m.sorted m'.sorted
  cases m
  cases m'
  cases heq
  rfl

theorem get?_foldl_insert {entries : List (String × α)} (hd : Fields.Distinct entries) (m : NameMap α) (name : String) :
    (entries.foldl (fun m e => m.insert e.1 e.2) m).get? name = (Fields.get? name entries).or (m.get? name) := by
  induction entries generalizing m with
  | nil => rfl
  | cons f rest ih =>
    obtain ⟨k, v⟩ := f
    rw [List.foldl_cons, ih hd.tail, get?_insert, Fields.get?]
    by_cases hk : k = name
    · subst hk
      rw [if_pos rfl, if_pos rfl, Fields.get?_eq_none_iff.2 hd.not_mem]
      rfl
    · rw [if_neg hk, if_neg hk]

/-- A map made from distinct entries in any order has just their values. -/
theorem get?_ofList {entries : List (String × α)} (hd : Fields.Distinct entries) (name : String) :
    (ofList entries).get? name = Fields.get? name entries := by
  rw [ofList, get?_foldl_insert hd, get?_empty, Option.or_none]

end NameMap

end Chronicle
