import Chronicle.Fields

/-!
# JSON values

A number is an integer, if its text has neither fraction nor exponent and 64 bits hold it, and a finite double
otherwise. The two kinds stay apart: `5` and `5.0` are different values. Objects keep the order of their members.
-/

namespace Chronicle

/-- An integer that fits in 64 bits, signed or unsigned. -/
structure Json.Integer where
  val : Int
  ge : -0x8000000000000000 ≤ val
  lt : val < 0x10000000000000000
deriving DecidableEq, Repr

/-- A double that is a real number. -/
structure Json.Double where
  val : Float
  finite : val.isFinite = true
deriving DecidableEq

/-- A JSON value. -/
inductive Json where
  | null
  | bool (b : Bool)
  | integer (n : Json.Integer)
  | double (x : Json.Double)
  | string (s : String)
  | array (items : List Json)
  | object (members : List (String × Json))
deriving Inhabited

namespace Json

/-- An integer, if 64 bits hold it. -/
def Integer.ofInt? (n : Int) : Option Integer :=
  if h : -0x8000000000000000 ≤ n ∧ n < 0x10000000000000000 then some ⟨n, h.1, h.2⟩ else none

/-- A signed 64-bit integer. -/
def Integer.ofInt64 (n : Int64) : Integer where
  val := n.toInt
  ge := n.le_toInt
  lt := by have := n.toInt_lt; omega

/-- The signed 64-bit integer of this value, if it is one. -/
def Integer.toInt64? (n : Integer) : Option Int64 :=
  if n.val < 0x8000000000000000 then some (Int64.ofInt n.val) else none

/-- A double, if it is a real number. -/
def Double.ofFloat? (x : Float) : Option Double :=
  if h : x.isFinite = true then some ⟨x, h⟩ else none

mutual

/-- How deep arrays and objects nest: zero for a scalar. -/
def depth : Json → Nat
  | .array items => depthOfItems items + 1
  | .object members => depthOfMembers members + 1
  | _ => 0

/-- The greatest depth among the items. -/
def depthOfItems : List Json → Nat
  | [] => 0
  | v :: rest => max (depth v) (depthOfItems rest)

/-- The greatest depth among the members' values. -/
def depthOfMembers : List (String × Json) → Nat
  | [] => 0
  | (_, v) :: rest => max (depth v) (depthOfMembers rest)

end

mutual

/-- Whether two values are the same, whatever the order of the members of their objects. -/
def same : Json → Json → Bool
  | .null, .null => true
  | .bool a, .bool b => a == b
  | .integer a, .integer b => a == b
  | .double a, .double b => a.val == b.val
  | .string a, .string b => a == b
  | .array as, .array bs => sameItems as bs
  | .object as, .object bs => as.length == bs.length && sameMembers as bs
  | _, _ => false

/-- Whether two lists of values are the same, item by item. -/
def sameItems : List Json → List Json → Bool
  | [], [] => true
  | a :: as, b :: bs => same a b && sameItems as bs
  | _, _ => false

/-- Whether each member has an equal in `bs`. -/
def sameMembers : List (String × Json) → List (String × Json) → Bool
  | [], _ => true
  | (k, a) :: rest, bs =>
    (match Fields.get? k bs with
      | some b => same a b
      | none => false) && sameMembers rest bs

end

mutual

/-- Each object of a value has distinct member names. -/
def WellFormed : Json → Prop
  | .array items => WellFormedItems items
  | .object members => Fields.Distinct members ∧ WellFormedMembers members
  | _ => True

/-- Each item is well-formed. -/
def WellFormedItems : List Json → Prop
  | [] => True
  | v :: rest => WellFormed v ∧ WellFormedItems rest

/-- Each member's value is well-formed. -/
def WellFormedMembers : List (String × Json) → Prop
  | [] => True
  | (_, v) :: rest => WellFormed v ∧ WellFormedMembers rest

end

end Json

end Chronicle
