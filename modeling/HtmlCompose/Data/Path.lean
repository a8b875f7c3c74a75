/-
# Looking up and testing data

A path such as `user.tags.0` names a key of the data and then, step by step, a
key of an object or a position of a list. Absent values, `null`, `false`, the
zeros and the empty text do not hold as conditions; everything else does, empty
lists and objects included. A leading `!` turns a condition round.
-/
import HtmlCompose.Data.Json.Printer
import HtmlCompose.Text.Blank
import HtmlCompose.Text.Search

namespace HtmlCompose
namespace Json

/-- One step into a value. -/
def child? (value : Json) (segment : String) : Option Json :=
  match value with
  | .object fields => Record.get? fields segment
  | .array items => (Text.readCount 10 UInt64.size segment.toList).bind (items[·]?)
  | _ => none

/-- The value holds as a condition. -/
def holds : Json → Bool
  | .null => false
  | .bool b => b
  | .number (.int n) => n != 0
  | .number (.double x) => !x.isZero
  | .string s => !s.isEmpty
  | .array _ => true
  | .object _ => true

/-- The value as plain text: nothing for `null`, a text as it is, everything else as JSON. -/
def toText : Json → String
  | .null => ""
  | .string s => s
  | value => value.print

end Json

namespace Data

/-- The value at a path. -/
def lookup (data : Data) (path : String) : Option Json :=
  match segments '.' (trimmed path) with
  | [] => none
  | first :: rest =>
    if first.isEmpty then none
    else (Record.get? data first).bind fun value => rest.foldlM Json.child? value

/-- The value at a path is there and holds. -/
def truthy (data : Data) (path : String) : Bool :=
  (data.lookup path).any Json.holds

/-- The path of a condition that starts with `!`. -/
def negated? (expr : String) : Option String :=
  match (trimmed expr).toList with
  | '!' :: path => some (String.ofList path)
  | _ => none

/-- A condition holds: a path, or a path after `!` whose value does not. -/
def conditionHolds (data : Data) (expr : String) : Bool :=
  match negated? expr with
  | some path => !data.truthy path
  | none => data.truthy expr

end Data
end HtmlCompose
