/-
# Data values

Component data is JSON: whole numbers and doubles are different values, and the
entries of an object are a record, sorted by key. A data context is the record of
an object.
-/
import HtmlCompose.Data.Record
import HtmlCompose.Decimal.Shortest

namespace HtmlCompose

/-- A number of the data: `1` and `1.0` are different. -/
inductive Number where
  /-- a whole number written without point and exponent -/
  | int (value : Int)
  /-- any other number -/
  | double (value : Double)
deriving DecidableEq, Repr, Inhabited

/-- A data value. -/
inductive Json where
  | null
  | bool (value : Bool)
  | number (value : Number)
  | string (value : String)
  | array (items : List Json)
  | object (fields : List (String × Json))
deriving Repr, Inhabited

/-- The data that a component is rendered with. -/
abbrev Data := Record Json

/-- Equality of numbers: a whole number never equals a double, and the two zeros among the doubles
are equal. -/
def Number.same : Number → Number → Bool
  | .int a, .int b => a == b
  | .double a, .double b => a == b || (a.isZero && b.isZero)
  | _, _ => false

namespace Json

mutual
/-- Equality of data values. -/
def same : Json → Json → Bool
  | .null, .null => true
  | .bool a, .bool b => a == b
  | .number a, .number b => a.same b
  | .string a, .string b => a == b
  | .array a, .array b => sameItems a b
  | .object a, .object b => sameFields a b
  | _, _ => false

/-- Equality of lists, item by item. -/
def sameItems : List Json → List Json → Bool
  | [], [] => true
  | a :: as, b :: bs => same a b && sameItems as bs
  | _, _ => false

/-- Equality of records, entry by entry. -/
def sameFields : List (String × Json) → List (String × Json) → Bool
  | [], [] => true
  | (k, a) :: as, (l, b) :: bs => k == l && same a b && sameFields as bs
  | _, _ => false
end

/-- The value is `null`. -/
def isNull : Json → Bool
  | .null => true
  | _ => false

/-- The entries of an object; nothing else has entries. -/
def fields? : Json → Option Data
  | .object fields => some fields
  | _ => none

/-- The items of a list. -/
def items? : Json → Option (List Json)
  | .array items => some items
  | _ => none

/-- The text of a string. -/
def string? : Json → Option String
  | .string s => some s
  | _ => none

end Json
end HtmlCompose
