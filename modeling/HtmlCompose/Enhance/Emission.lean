/-
# A stylesheet that is written while its document is walked

The nodes below the root are visited in the order of a walk down.  A class that is met for
the first time is remembered, whether it has a rule or not, and a rule is written for it if
the table has declarations.

The table is made once: the built-in rules are put into the configured ones, each if its
class has no configured rule.
-/
import HtmlCompose.Enhance.Stylesheet
import HtmlCompose.Markup.Document

namespace HtmlCompose
namespace Stylesheet

/-- The record with an entry added, if its key is missing. -/
def fillIn (r : Record String) (entry : String × String) : Record String :=
  match Record.get? r entry.1 with
  | some _ => r
  | none => r.insert entry.1 entry.2

/-- The rules that count. -/
def Config.table (config : Config) : Record String :=
  if config.defaults then builtin.foldl fillIn config.rules else config.rules

/-- A stylesheet that is being written. -/
structure Sheet where
  text : List Char
  /-- the classes met so far, the last one first -/
  seen : List (List Char) := []

namespace Sheet

/-- Meets a class. -/
def meet (table : Record String) (s : Sheet) (name : List Char) : Sheet :=
  if s.seen.contains name then s
  else
    let s := { s with seen := name :: s.seen }
    match Record.get? table (String.ofList name) with
    | some declarations => { s with text := s.text ++ writeRule name declarations }
    | none => s

/-- Meets the classes of a node, from left to right. -/
def visit (table : Record String) (d : Markup.Document) (s : Sheet) (h : Markup.Handle) : Sheet :=
  match (d.element? h).bind (·.attr? "class") with
  | some classes => (Text.words classes.toList).foldl (meet table) s
  | none => s

end Sheet

/-- The stylesheet of a document, written along a walk. -/
def emit (config : Config) (d : Markup.Document) : List Char :=
  ((d.descendants Markup.Document.root).foldl (Sheet.visit config.table d)
    { text := writePreflight config.preflight }).text

end Stylesheet
end HtmlCompose
