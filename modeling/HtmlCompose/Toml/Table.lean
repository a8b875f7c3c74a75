/-
# Building the tables of a TOML document

A table comes into being by its header, on the way to another one, or by a dotted
key, and that decides how it may be extended later:

| made by | a header of its own | dotted keys through it | keys put into it |
| --- | --- | --- | --- |
| a header | no | no | after its header only |
| being on the way of a header | yes, once | yes | after its header only |
| a dotted key | no | yes | by dotted keys only |

A header in double brackets adds an element to a list of tables; a path through
such a list goes on in its last element.
-/
import HtmlCompose.Toml.Value

namespace HtmlCompose
namespace Toml

/-- What a table was made by. -/
inductive Origin where
  | header
  | onTheWay
  | dotted
deriving DecidableEq, Repr

/-- What a key of a table under construction stands for. -/
inductive Item where
  | value (v : Value)
  | table (origin : Origin) (entries : List (String × Item))
  /-- tables from headers in double brackets, the last one first -/
  | tables (last : List (String × Item)) (earlier : List (List (String × Item)))
deriving Repr, Inhabited

/-- The keys of a table under construction. -/
abbrev Entries := Record Item

namespace Entries

/-- Changes the table that a header path leads to. -/
def descend (change : Entries → Option Entries) : List String → Entries → Option Entries
  | [], t => change t
  | key :: path, t =>
    match Record.get? t key with
    | none => (descend change path []).map fun sub => Record.insert key (.table .onTheWay sub) t
    | some (.table origin sub) =>
      (descend change path sub).map fun sub => Record.insert key (.table origin sub) t
    | some (.tables last earlier) =>
      (descend change path last).map fun last => Record.insert key (.tables last earlier) t
    | some (.value _) => none

/-- The header of a table: the table is new, or was on the way of another header. -/
def openTable (key : String) (t : Entries) : Option Entries :=
  match Record.get? t key with
  | none => some (Record.insert key (.table .header []) t)
  | some (.table .onTheWay sub) => some (Record.insert key (.table .header sub) t)
  | _ => none

/-- The header of an element of a list of tables. -/
def openElement (key : String) (t : Entries) : Option Entries :=
  match Record.get? t key with
  | none => some (Record.insert key (.tables [] []) t)
  | some (.tables last earlier) => some (Record.insert key (.tables [] (last :: earlier)) t)
  | _ => none

/-- Puts a value under a dotted key. The flag says that the table was made by a dotted key, the
number of keys passed that the key was dotted. -/
def assign (key : String) (v : Value) : Bool → Nat → List String → Entries → Option Entries
  | isDotted, passed, [], t =>
    if isDotted = (passed == 0) then none
    else if (Record.get? t key).isSome then none
    else some (Record.insert key (.value v) t)
  | _, passed, k :: path, t =>
    match Record.get? t k with
    | none =>
      (assign key v true (passed + 1) path []).map fun sub =>
        Record.insert k (.table .dotted sub) t
    | some (.table .header _) => none
    | some (.table origin sub) =>
      (assign key v (origin == .dotted) (passed + 1) path sub).map fun sub =>
        Record.insert k (.table origin sub) t
    | some (.tables last earlier) =>
      (assign key v false (passed + 1) path last).map fun last =>
        Record.insert k (.tables last earlier) t
    | some (.value _) => none

end Entries

mutual
/-- The value of an item when the document ends. -/
def Item.finish : Item → Value
  | .value v => v
  | .table _ entries => .table (finishEntries entries)
  | .tables last earlier => .array (finishTables earlier [.table (finishEntries last)])

/-- The values of the keys of a table. -/
def finishEntries : List (String × Item) → List (String × Value)
  | [] => []
  | (k, i) :: rest => (k, i.finish) :: finishEntries rest

/-- The tables of a list in order, in front of those after it. -/
def finishTables : List (List (String × Item)) → List Value → List Value
  | [], after => after
  | t :: earlier, after => finishTables earlier (.table (finishEntries t) :: after)
end

end Toml
end HtmlCompose
