import Chronicle.Proofs.Bson.Forms
import Chronicle.Proofs.Json.Rereading

/-!
# Integers that cannot be stored

Storing a value fails at the first integer, in the order of the text, that only an unsigned type holds
(`Bson.blames`). Whether there is one does not depend on how doubles are read (`Json.firstUnsigned?_reread`).
-/

namespace Chronicle

namespace Json

/-- The number of an integer that only an unsigned type holds. -/
def unsigned? : Json → Option Nat
  | .integer n => if n.val < 0x8000000000000000 then none else some n.val.toNat
  | _ => none

/-- The first integer at any depth that only an unsigned type holds. -/
def firstUnsigned? (v : Json) : Option Nat := v.parts.findSome? unsigned?

variable {v : Json}

theorem firstUnsigned?_eq_none_iff :
    v.firstUnsigned? = none ↔ ∀ n, .integer n ∈ v.parts → n.val < 0x8000000000000000 := by
  rw [firstUnsigned?, List.findSome?_eq_none_iff]
  constructor
  · intro h n hn
    have := h _ hn
    rw [unsigned?] at this
    split at this
    · assumption
    · cases this
  · intro h u hu
    cases u with
    | integer n => exact if_pos (h n hu)
    | _ => rfl

theorem findSome?_flatMap {α β γ : Type} (f : α → List β) (g : β → Option γ) (xs : List α) :
    (xs.flatMap f).findSome? g = xs.findSome? fun x => (f x).findSome? g := by
  induction xs with
  | nil => rfl
  | cons x xs ih =>
    rw [List.flatMap_cons, List.findSome?_append, ih, List.findSome?_cons]
    cases (f x).findSome? g <;> rfl

theorem firstUnsigned?_array (items : List Json) :
    (Json.array items).firstUnsigned? = items.findSome? firstUnsigned? := by
  rw [firstUnsigned?, parts, partsOfItems_eq, List.findSome?_cons, findSome?_flatMap]
  rfl

theorem firstUnsigned?_object (members : List (String × Json)) :
    (Json.object members).firstUnsigned? = members.findSome? fun m => m.2.firstUnsigned? := by
  rw [firstUnsigned?, parts, partsOfMembers_eq, List.findSome?_cons, findSome?_flatMap]
  rfl

/-- Doubles do not matter. -/
theorem firstUnsigned?_reread (v : Json) : v.reread.firstUnsigned? = v.firstUnsigned? := by
  rw [firstUnsigned?, parts_reread, List.findSome?_map, firstUnsigned?]
  congr 1
  funext u
  cases u <;> rfl

end Json

namespace Bson

section

variable {v : Json} {items : List Json} {members : List (String × Json)} {n : Nat}

/-- A value cannot be stored just if it has an unsigned integer, and then the first one is to blame. -/
def Blames (v : Json) : Prop := ∀ n, ofJson v = .error n ↔ v.firstUnsigned? = some n

theorem Blames.exists_ok (h : Blames v) (hv : v.firstUnsigned? = none) : ∃ b, ofJson v = .ok b := by
  cases hb : ofJson v with
  | ok b => exact ⟨b, rfl⟩
  | error n =>
    rw [(h n).1 hb] at hv
    cases hv

theorem ofJsonItems_eq_error_iff (h : ∀ v ∈ items, Blames v) :
    ofJsonItems items = .error n ↔ items.findSome? Json.firstUnsigned? = some n := by
  induction items with
  | nil => simp [ofJsonItems]
  | cons v rest ih =>
    obtain ⟨hv, hr⟩ := List.forall_mem_cons.1 h
    rw [ofJsonItems, List.findSome?_cons]
    cases hf : v.firstUnsigned? with
    | some m =>
      rw [(hv m).2 hf, Except.error_bind]
      simp
    | none =>
      obtain ⟨b, hb⟩ := hv.exists_ok hf
      rw [hb, Except.ok_bind, Except.bind_eq_error_iff, ih hr]
      simp

theorem ofJsonMembers_eq_error_iff_items :
    ofJsonMembers members = .error n ↔ ofJsonItems (members.map Prod.snd) = .error n := by
  induction members with
  | nil => simp [ofJsonMembers, ofJsonItems]
  | cons m rest ih =>
    rw [List.map_cons, ofJsonMembers, ofJsonItems]
    simp only [Except.bind_eq_error_iff, ih]
    simp

theorem ofJsonMembers_eq_error_iff (h : ∀ m ∈ members, Blames m.2) :
    ofJsonMembers members = .error n ↔ members.findSome? (fun m => m.2.firstUnsigned?) = some n := by
  rw [ofJsonMembers_eq_error_iff_items, ofJsonItems_eq_error_iff (List.forall_mem_map.2 h), List.findSome?_map]
  rfl

/-- **Storing**: only an unsigned integer keeps a value from being stored, and the first one is named. -/
theorem blames (v : Json) : Blames v := by
  induction v using Json.induct with
  | integer i =>
    intro n
    have hfirst : (Json.integer i).firstUnsigned? = (Json.integer i).unsigned? := List.findSome?_singleton
    rw [hfirst, ofJson, Json.Integer.toInt64?, Json.unsigned?]
    by_cases hi : i.val < 0x8000000000000000
    · simp only [if_pos hi]
      exact iff_of_false (fun h => by cases h) (fun h => by cases h)
    · simp only [if_neg hi]
      rw [Except.error.injEq, Option.some.injEq]
  | array items ih =>
    intro n
    rw [ofJson, Json.firstUnsigned?_array, ← ofJsonItems_eq_error_iff ih, Except.bind_eq_error_iff]
    simp
  | object members ih =>
    intro n
    rw [ofJson, Json.firstUnsigned?_object, ← ofJsonMembers_eq_error_iff ih, Except.bind_eq_error_iff]
    simp
  | _ =>
    intro n
    exact iff_of_false (fun h => by cases h) (fun h => by cases h)

end

end Bson

end Chronicle
