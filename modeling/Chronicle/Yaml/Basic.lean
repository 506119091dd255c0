import Chronicle.Decimal.Reader
import Chronicle.Text.Digits

/-!
# YAML values

What a YAML text stands for, under the core schema of YAML 1.2. `Yaml.ofPlain` says which plain words are no strings:
`null` and `~`, `true` and `false` in lower case, 64-bit integers in base ten, `0x` and `0o`, and real numbers, which
keep their text.
-/

namespace Chronicle

/-- A YAML value. A mapping keeps its order. -/
inductive Yaml where
  | null
  | boolean (b : Bool)
  | integer (n : Int64)
  | real (text : String)
  | string (s : String)
  | sequence (items : List Yaml)
  | mapping (entries : List (Yaml × Yaml))
deriving Inhabited, BEq

namespace Yaml

/-- The number that digits of a base stand for. -/
def valueIn? (base : Nat) (ds : List Char) : Option Nat :=
  if ds.isEmpty then none
  else ds.foldlM (fun n c => (Text.hexValue? c).bind fun d => if d < base then some (n * base + d) else none) 0

/-- The 64-bit integer that digits of a base with an optional sign stand for. -/
def integerIn? (base : Nat) (s : List Char) : Option Int64 :=
  let n : Option Int := match s with
    | '+' :: ds => (valueIn? base ds).map Int.ofNat
    | '-' :: ds => (valueIn? base ds).map fun n => -(n : Int)
    | ds => (valueIn? base ds).map Int.ofNat
  n >>= Text.int64OfInt?

/-- The integer of a word that says its base, or has a plus sign in front. -/
def markedInteger? : List Char → Option Int64
  | '0' :: 'x' :: ds => integerIn? 16 ds
  | '0' :: 'o' :: ds => integerIn? 8 ds
  | '+' :: ds => Text.int64? ds
  | _ => none

/-- The words for the values that no digits can write. -/
def specialReals : List String :=
  [".inf", ".Inf", ".INF", "+.inf", "+.Inf", "+.INF", "-.inf", "-.Inf", "-.INF", ".nan", "NaN", ".NAN"]

/-- Whether a word is a real number. -/
def isReal (s : String) : Bool :=
  s ∈ specialReals || (s.toList.any Text.isDigit && (Decimal.read? s.toList).isSome)

/-- The value of a plain word. -/
def ofPlain (s : String) : Yaml :=
  match markedInteger? s.toList with
  | some n => .integer n
  | none =>
    match s with
    | "" | "~" | "null" => .null
    | "true" => .boolean true
    | "false" => .boolean false
    | _ =>
      match Text.int64? s.toList with
      | some n => .integer n
      | none => if isReal s then .real s else .string s

/-- The value of a plain word that a tag of the core schema stands in front of: null, if the word does not fit it. -/
def ofTagged (tag s : String) : Yaml :=
  match tag with
  | "bool" => match s with
    | "true" => .boolean true
    | "false" => .boolean false
    | _ => .null
  | "int" => ((Text.int64? s.toList).map .integer).getD .null
  | "float" => if isReal s then .real s else .null
  | "null" => .null
  | _ => .string s

end Yaml

end Chronicle
