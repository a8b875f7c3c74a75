/-
# Values of a TOML document

What a key can stand for. A float that is not finite has no double. As data, such
a float is `null`, and a date or time is an object with one entry that holds its
text.
-/
import HtmlCompose.Data.Json

namespace HtmlCompose
namespace Toml

/-- A value. -/
inductive Value where
  | string (s : String)
  | integer (n : Int)
  /-- nothing for `inf` and `nan` -/
  | float (x : Option Double)
  | boolean (b : Bool)
  /-- a date, a time or both, in standard form -/
  | datetime (text : String)
  | array (items : List Value)
  | table (entries : List (String × Value))
deriving Repr, Inhabited

/-- The key that marks a date or time among data. -/
def datetimeKey : String := "$__toml_private_datetime"

namespace Value

mutual
/-- The value as data. -/
def toJson : Value → Json
  | .string s => .string s
  | .integer n => .number (.int n)
  | .float (some x) => .number (.double x)
  | .float none => .null
  | .boolean b => .bool b
  | .datetime text => .object [(datetimeKey, .string text)]
  | .array items => .array (itemsToJson items)
  | .table entries => .object (Record.ofList (entriesToJson entries))

/-- The items as data. -/
def itemsToJson : List Value → List Json
  | [] => []
  | v :: vs => toJson v :: itemsToJson vs

/-- The entries as data. -/
def entriesToJson : List (String × Value) → List (String × Json)
  | [] => []
  | (k, v) :: vs => (k, toJson v) :: entriesToJson vs
end

end Value
end Toml
end HtmlCompose
