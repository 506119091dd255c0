/-!
# Finite maps keyed by names

A map from names to values, kept in ascending order of the names (by code point). `insert` replaces, `erase` removes;
`get?_insert` and `get?_erase` say what they do to every name.
-/

namespace Chronicle

/-- A finite map whose entries are in ascending order of their names. -/
structure NameMap (α : Type) where
  entries : List (String × α)
  sorted : entries.Pairwise fun a b => a.1 < b.1
deriving DecidableEq

namespace NameMap

variable {α : Type}

/-- The map without entries. -/
def empty : NameMap α := ⟨[], .nil⟩

instance : EmptyCollection (NameMap α) := ⟨empty⟩

instance : Inhabited (NameMap α) := ⟨empty⟩

/-- The value of a name among entries. -/
def lookup (name : String) : List (String × α) → Option α
  | [] => none
  | (k, v) :: rest => if k = name then some v else lookup name rest

/-- The value of a name. -/
def get? (m : NameMap α) (name : String) : Option α := lookup name m.entries

/-- Whether a name has a value. -/
def contains (m : NameMap α) (name : String) : Bool := (m.get? name).isSome

/-- The names, in ascending order. -/
def names (m : NameMap α) : List String := m.entries.map Prod.fst

/-- Entries with a value put in at its place. -/
def insertEntry (name : String) (value : α) : List (String × α) → List (String × α)
  | [] => [(name, value)]
  | (k, v) :: rest =>
    if name < k then (name, value) :: (k, v) :: rest
    else if name = k then (name, value) :: rest
    else (k, v) :: insertEntry name value rest

theorem mem_insertEntry {name : String} {value : α} {entries : List (String × α)} {e : String × α}
    (h : e ∈ insertEntry name value entries) : e = (name, value) ∨ e ∈ entries := by
  induction entries with
  | nil => simpa [insertEntry] using h
  | cons f rest ih =>
    obtain ⟨k, v⟩ := f
    unfold insertEntry at h
    split at h
    · simpa using h
    · split at h
      · simp only [List.mem_cons] at h ⊢
        exact h.imp_right .inr
      · simp only [List.mem_cons] at h ⊢
        rcases h with h | h
        · exact .inr (.inl h)
        · exact (ih h).imp_right .inr

theorem lt_of_not_lt_of_ne {a b : String} (h : ¬a < b) (hne : a ≠ b) : b < a := by
  grind

theorem pairwise_insertEntry (name : String) (value : α) {entries : List (String × α)}
    (h : entries.Pairwise fun a b => a.1 < b.1) :
    (insertEntry name value entries).Pairwise fun a b => a.1 < b.1 := by
  induction entries with
  | nil => simp [insertEntry]
  | cons f rest ih =>
    obtain ⟨k, v⟩ := f
    obtain ⟨hk, hr⟩ := List.pairwise_cons.1 h
    unfold insertEntry
    split
    · rename_i hlt
      refine List.pairwise_cons.2 ⟨fun e he => ?_, h⟩
      rcases List.mem_cons.1 he with rfl | he
      · exact hlt
      · exact String.lt_trans hlt (hk e he)
    · split
      · rename_i heq
        exact List.pairwise_cons.2 ⟨fun e he => heq ▸ hk e he, hr⟩
      · rename_i hlt hne
        refine List.pairwise_cons.2 ⟨fun e he => ?_, ih hr⟩
        rcases mem_insertEntry he with rfl | he
        · exact lt_of_not_lt_of_ne hlt hne
        · exact hk e he

/-- Gives a name a value, instead of the one it had. -/
def insert (m : NameMap α) (name : String) (value : α) : NameMap α :=
  ⟨insertEntry name value m.entries, pairwise_insertEntry name value m.sorted⟩

/-- Takes a name out. -/
def erase (m : NameMap α) (name : String) : NameMap α :=
  ⟨m.entries.filter fun e => e.1 ≠ name, m.sorted.filter _⟩

/-- Entries put in one after the other. -/
def ofList (entries : List (String × α)) : NameMap α :=
  entries.foldl (fun m e => m.insert e.1 e.2) empty

/-- Every value replaced by its image. -/
def mapValues {β : Type} (f : α → β) (m : NameMap α) : NameMap β :=
  ⟨m.entries.map fun e => (e.1, f e.2), by simpa [List.pairwise_map] using m.sorted⟩

/-! ## Laws -/

theorem lookup_insertEntry (name other : String) (value : α) (entries : List (String × α)) :
    lookup other (insertEntry name value entries) = if name = other then some value else lookup other entries := by
  induction entries with
  | nil => simp [insertEntry, lookup]
  | cons f rest ih =>
    obtain ⟨k, v⟩ := f
    unfold insertEntry
    split
    · simp [lookup]
    · split
      · rename_i heq
        subst heq
        by_cases h : name = other <;> simp [lookup, h]
      · rename_i hne
        by_cases h : k = other
        · subst h
          simp [lookup, hne]
        · simp [lookup, h, ih]

theorem get?_insert (m : NameMap α) (name other : String) (value : α) :
    (m.insert name value).get? other = if name = other then some value else m.get? other :=
  lookup_insertEntry name other value m.entries

theorem lookup_filter_ne (name other : String) (entries : List (String × α)) :
    lookup other (entries.filter fun e => e.1 ≠ name) = if name = other then none else lookup other entries := by
  induction entries with
  | nil => simp [lookup]
  | cons f rest ih =>
    obtain ⟨k, v⟩ := f
    by_cases h : k = name
    · subst h
      rw [List.filter_cons_of_neg (by simp), ih]
      by_cases ho : k = other <;> simp [lookup, ho]
    · rw [List.filter_cons_of_pos (by simpa using h)]
      by_cases ho : k = other
      · subst ho
        simp [lookup, Ne.symm h]
      · rw [lookup, if_neg ho, ih, lookup, if_neg ho]

theorem get?_erase (m : NameMap α) (name other : String) :
    (m.erase name).get? other = if name = other then none else m.get? other :=
  lookup_filter_ne name other m.entries

@[simp] theorem get?_empty (name : String) : (empty : NameMap α).get? name = none := rfl

end NameMap

end Chronicle
