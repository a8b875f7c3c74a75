/-
# Markup that never ends

Only two faults of markup are errors: a comment without its end and a raw-text
element without its closing tag, since both would swallow all that follows. The
span is in bytes and reaches from the opening to the end of the source.
-/

namespace HtmlCompose
namespace Markup

/-- A range of byte positions. -/
structure Span where
  start : Nat
  stop : Nat
deriving DecidableEq, Repr

/-- Why a source is not accepted. -/
inductive Fault where
  /-- `<!--` without `-->` -/
  | unterminatedComment (span : Span)
  /-- a raw-text element without its closing tag -/
  | unterminatedRawText (tag : String) (span : Span)
deriving DecidableEq, Repr

namespace Fault

/-- Where the fault is. -/
def span : Fault → Span
  | unterminatedComment s => s
  | unterminatedRawText _ s => s

/-- The span as `start..stop`. -/
def writeSpan (s : Span) : String :=
  toString s.start ++ ".." ++ toString s.stop

/-- The fault in words. -/
def message : Fault → String
  | unterminatedComment s => "unterminated comment at " ++ writeSpan s
  | unterminatedRawText tag s => "unterminated <" ++ tag ++ "> element at " ++ writeSpan s

end Fault
end Markup
end HtmlCompose
