import Chronicle.Json.Basic

/-!
# The parts of a JSON value

`Json.parts` lists a value and everything inside it, so that "at any depth" is membership. `Json.induct` is induction
on values, with the items of arrays and the members of objects as lists.
-/

namespace Chronicle.Json

mutual

/-- A value and all values inside it. -/
def parts : Json → List Json
  | .array items => .array items :: partsOfItems items
  | .object members => .object members :: partsOfMembers members
  | v => [v]

/-- The parts of items. -/
def partsOfItems : List Json → List Json
  | [] => []
  | v :: rest => parts v ++ partsOfItems rest

/-- The parts of the members' values. -/
def partsOfMembers : List (String × Json) → List Json
  | [] => []
  | (_, v) :: rest => parts v ++ partsOfMembers rest

end

/-- Induction on a value: an array or an object may use the claim for all it holds. -/
@[elab_as_elim]
theorem induct {P : Json → Prop} (null : P .null) (bool : ∀ b, P (.bool b)) (integer : ∀ n, P (.integer n))
    (double : ∀ x, P (.double x)) (string : ∀ s, P (.string s))
    (array : ∀ items, (∀ v ∈ items, P v) → P (.array items))
    (object : ∀ members, (∀ m ∈ members, P m.2) → P (.object members)) (v : Json) : P v :=
  @Json.rec P (fun items => ∀ v ∈ items, P v) (fun members => ∀ m ∈ members, P m.2) (fun m => P m.2)
    null bool integer double string (fun items ih => array items ih) (fun members ih => object members ih)
    (fun _ h => absurd h List.not_mem_nil) (fun _ _ hv hr => List.forall_mem_cons.2 ⟨hv, hr⟩)
    (fun _ h => absurd h List.not_mem_nil) (fun _ _ hm hr => List.forall_mem_cons.2 ⟨hm, hr⟩)
    (fun _ _ hv => hv) v

/-! ## Parts, depth and form, through membership -/

theorem partsOfItems_eq (items : List Json) : partsOfItems items = items.flatMap parts := by
  induction items with
  | nil => rfl
  | cons v rest ih => rw [partsOfItems, ih, List.flatMap_cons]

theorem partsOfMembers_eq (members : List (String × Json)) :
    partsOfMembers members = members.flatMap fun m => parts m.2 := by
  induction members with
  | nil => rfl
  | cons m rest ih => rw [partsOfMembers, ih, List.flatMap_cons]

theorem self_mem_parts (v : Json) : v ∈ v.parts := by
  cases v <;> simp [parts]

theorem mem_parts_array {u v : Json} {items : List Json} (hv : v ∈ items) (hu : u ∈ v.parts) :
    u ∈ (Json.array items).parts := by
  rw [parts, partsOfItems_eq]
  exact List.mem_cons_of_mem _ (List.mem_flatMap.2 ⟨v, hv, hu⟩)

theorem mem_parts_object {u : Json} {m : String × Json} {members : List (String × Json)} (hm : m ∈ members)
    (hu : u ∈ m.2.parts) : u ∈ (Json.object members).parts := by
  rw [parts, partsOfMembers_eq]
  exact List.mem_cons_of_mem _ (List.mem_flatMap.2 ⟨m, hm, hu⟩)

theorem of_mem_parts_array {u : Json} {items : List Json} (h : u ∈ (Json.array items).parts) :
    u = .array items ∨ ∃ v ∈ items, u ∈ v.parts := by
  rw [parts, partsOfItems_eq] at h
  exact (List.mem_cons.1 h).imp_right List.mem_flatMap.1

theorem of_mem_parts_object {u : Json} {members : List (String × Json)} (h : u ∈ (Json.object members).parts) :
    u = .object members ∨ ∃ m ∈ members, u ∈ m.2.parts := by
  rw [parts, partsOfMembers_eq] at h
  exact (List.mem_cons.1 h).imp_right List.mem_flatMap.1

theorem depthOfItems_le_iff {items : List Json} {n : Nat} : depthOfItems items ≤ n ↔ ∀ v ∈ items, v.depth ≤ n := by
  induction items with
  | nil => simp [depthOfItems]
  | cons v rest ih => rw [depthOfItems, List.forall_mem_cons, ← ih, Nat.max_le]

theorem depthOfMembers_le_iff {members : List (String × Json)} {n : Nat} :
    depthOfMembers members ≤ n ↔ ∀ m ∈ members, m.2.depth ≤ n := by
  induction members with
  | nil => simp [depthOfMembers]
  | cons m rest ih => rw [depthOfMembers, List.forall_mem_cons, ← ih, Nat.max_le]

theorem wellFormedItems_iff {items : List Json} : WellFormedItems items ↔ ∀ v ∈ items, v.WellFormed := by
  induction items with
  | nil => simp [WellFormedItems]
  | cons v rest ih => rw [WellFormedItems, ih, List.forall_mem_cons]

theorem wellFormedMembers_iff {members : List (String × Json)} :
    WellFormedMembers members ↔ ∀ m ∈ members, m.2.WellFormed := by
  induction members with
  | nil => simp [WellFormedMembers]
  | cons m rest ih => rw [WellFormedMembers, ih, List.forall_mem_cons]

end Chronicle.Json
