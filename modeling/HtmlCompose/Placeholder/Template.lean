/-
# Placeholder templates

A template is text with tags between double braces. Terms name values: literals,
paths into the data, and calls of helpers with positional and named arguments.

| piece | meaning |
| --- | --- |
| text | written as it is |
| value | the value of a term, escaped or not |
| block | a helper that decides how often its body or its alternative is written |
| definition | gives its body a name, under which it is a part from then on |
| inclusion | the part of a name, perhaps with a body to stand in for it |
-/
import HtmlCompose.Data.Json

namespace HtmlCompose
namespace Placeholder

/-- Where a path starts. -/
inductive Origin where
  /-- at the value of a block -/
  | block
  /-- at the whole data -/
  | root
  /-- among the variables of a block -/
  | locals
deriving DecidableEq, Repr

/-- A path as written, and where it leads. -/
structure Path where
  /-- the path as written -/
  text : String
  origin : Origin
  /-- the number of blocks to step out of -/
  outward : Nat
  /-- the keys and positions to step into -/
  keys : List String
deriving DecidableEq, Repr

/-- Something with a value. -/
inductive Term where
  | literal (value : Json)
  /-- a literal that follows the grammar but is no data value -/
  | malformed
  | path (p : Path)
  /-- a helper with its arguments -/
  | call (helper : String) (arguments : List Term)
  /-- an argument with a name -/
  | named (name : String) (value : Term)
deriving Repr

/-- A helper as called by a block, with the names it gives to what it steps into. -/
structure Call where
  helper : String
  arguments : List Term
  names : List String
deriving Repr

/-- What stands between the tags of a template, and what the tags ask for. -/
inductive Piece where
  | text (s : List Char)
  /-- the value of a term; the text of a term that stands alone may name a helper instead -/
  | value (escaped alone : Bool) (term : Term)
  | block (call : Call) (body alternative : List Piece)
  /-- the first argument is the name of the part -/
  | define (arguments : List Term) (body : List Piece)
  /-- a definition of another kind, which there is not -/
  | refused
  /-- the part of a name, with what each further line of it is indented by -/
  | inclusion (name : Term) (arguments : List Term) (indent : List Char)
  /-- the part of a name, or else the body; the part can include the body -/
  | wrapper (name : String) (arguments : List Term) (body : List Piece)
deriving Repr

mutual
/-- All literals of a term are data values. -/
def Term.isWellFormed : Term → Bool
  | .literal _ => true
  | .malformed => false
  | .path _ => true
  | .call _ arguments => areWellFormed arguments
  | .named _ value => value.isWellFormed

/-- All literals of some terms are data values. -/
def areWellFormed : List Term → Bool
  | [] => true
  | t :: ts => t.isWellFormed && areWellFormed ts
end

end Placeholder
end HtmlCompose
