/-!
# Named fields in order

A record of unknown shape is a list of named values. Its order is part of it, and each name stands in it once:
`set` replaces a value in place or adds a field at the end, `erase` closes the gap that it makes, and `swapErase` fills
the gap with the last field.

* `get?_set`: a field that is set holds its value, and all others keep theirs.
* `Distinct.set`, `Distinct.erase`: names stay distinct.
-/

namespace Chronicle.Fields

variable {α : Type}

/-- The value of a field. -/
def get? (name : String) : List (String × α) → Option α
  | [] => none
  | (k, v) :: rest => if k = name then some v else get? name rest

/-- Gives a field a value, in its place if it exists and at the end if it does not. -/
def set (name : String) (value : α) : List (String × α) → List (String × α)
  | [] => [(name, value)]
  | (k, v) :: rest => if k = name then (k, value) :: rest else (k, v) :: set name value rest

/-- Removes a field; the others keep their order. -/
def erase (name : String) : List (String × α) → List (String × α)
  | [] => []
  | (k, v) :: rest => if k = name then rest else (k, v) :: erase name rest

/-- The last field, if there is one, in front of the ones before it. -/
def lastFirst : List (String × α) → List (String × α)
  | [] => []
  | f :: rest => (f :: rest).getLast (by simp) :: (f :: rest).dropLast

/-- Removes a field; the last one moves into its place. -/
def swapErase (name : String) : List (String × α) → List (String × α)
  | [] => []
  | (k, v) :: rest => if k = name then lastFirst rest else (k, v) :: swapErase name rest

/-- Fields set one after the other: a repeated name keeps its first place and takes its last value. -/
def ofList (fields : List (String × α)) : List (String × α) :=
  fields.foldl (fun fs f => set f.1 f.2 fs) []

/-- The names, in order. -/
def names (fields : List (String × α)) : List String := fields.map Prod.fst

/-- Each name stands once. -/
def Distinct (fields : List (String × α)) : Prop := (names fields).Nodup

/-! ## Laws -/

theorem get?_set (name other : String) (value : α) (fs : List (String × α)) :
    get? other (set name value fs) = if name = other then some value else get? other fs := by
  induction fs with
  | nil => simp [set, get?]
  | cons f rest ih =>
    obtain ⟨k, v⟩ := f
    unfold set
    split
    · rename_i hk
      subst hk
      by_cases ho : k = other <;> simp [get?, ho]
    · rename_i hk
      by_cases ho : k = other
      · subst ho
        simp [get?, Ne.symm hk]
      · simp [get?, ho, ih]

theorem mem_names_set (name other : String) (value : α) (fs : List (String × α)) :
    other ∈ names (set name value fs) ↔ other = name ∨ other ∈ names fs := by
  induction fs with
  | nil => simp [set, names]
  | cons f rest ih =>
    obtain ⟨k, v⟩ := f
    unfold set
    split
    · rename_i hk
      simp [names, ← hk]
    · simp only [names, List.map_cons, List.mem_cons] at ih ⊢
      rw [ih]
      exact or_left_comm

/-- A new field goes to the end. -/
theorem set_of_not_mem {name : String} {fs : List (String × α)} (h : name ∉ names fs) (value : α) :
    set name value fs = fs ++ [(name, value)] := by
  induction fs with
  | nil => rfl
  | cons f rest ih =>
    obtain ⟨k, v⟩ := f
    obtain ⟨hk, hr⟩ := not_or.1 (mt List.mem_cons.2 h)
    rw [set, if_neg (Ne.symm hk), ih hr, List.cons_append]

/-- New fields go to the end, in their order. -/
theorem foldl_set_of_distinct {fs acc : List (String × α)} (h : Distinct (acc ++ fs)) :
    fs.foldl (fun fs f => set f.1 f.2 fs) acc = acc ++ fs := by
  induction fs generalizing acc with
  | nil => simp
  | cons f rest ih =>
    have hf : f.1 ∉ names acc := by
      rw [Distinct, names, List.map_append, List.map_cons, List.nodup_append] at h
      exact fun hm => h.2.2 _ hm _ List.mem_cons_self rfl
    rw [List.foldl_cons, set_of_not_mem hf, ih (by simpa using h), List.append_assoc]
    rfl

theorem ofList_of_distinct {fs : List (String × α)} (h : Distinct fs) : ofList fs = fs :=
  foldl_set_of_distinct (show Distinct ([] ++ fs) from h)

theorem mem_names_of_erase {name other : String} {fs : List (String × α)} (h : other ∈ names (erase name fs)) :
    other ∈ names fs := by
  induction fs with
  | nil => simpa [erase] using h
  | cons f rest ih =>
    obtain ⟨k, v⟩ := f
    unfold erase at h
    split at h
    · exact List.mem_cons_of_mem k h
    · rcases List.mem_cons.1 h with rfl | h
      · exact List.mem_cons_self
      · exact List.mem_cons_of_mem k (ih h)

theorem Distinct.set {fs : List (String × α)} (h : Distinct fs) (name : String) (value : α) :
    Distinct (set name value fs) := by
  induction fs with
  | nil => simp [Fields.set, Distinct, names]
  | cons f rest ih =>
    obtain ⟨k, v⟩ := f
    have hm := mem_names_set name k value rest
    by_cases hk : k = name <;> simp_all [Fields.set, Distinct, names]

theorem Distinct.erase {fs : List (String × α)} (h : Distinct fs) (name : String) : Distinct (erase name fs) := by
  induction fs with
  | nil => simpa [Fields.erase] using h
  | cons f rest ih =>
    obtain ⟨k, v⟩ := f
    obtain ⟨hk, hr⟩ := List.nodup_cons.1 h
    unfold Fields.erase
    split
    · exact hr
    · exact List.nodup_cons.2 ⟨fun hm => hk (mem_names_of_erase hm), ih hr⟩

theorem Distinct.ofList (fs : List (String × α)) : Distinct (ofList fs) := by
  suffices ∀ acc : List (String × α), Distinct acc →
      Distinct (fs.foldl (fun fs f => Fields.set f.1 f.2 fs) acc) from
    this [] (by simp [Distinct, names])
  induction fs with
  | nil => exact fun _ h => h
  | cons f rest ih => exact fun acc h => ih _ (h.set f.1 f.2)

end Chronicle.Fields
