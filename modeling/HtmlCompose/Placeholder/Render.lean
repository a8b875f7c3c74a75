/-
# Filling placeholder templates

A template is filled with data in the scope of the blocks around it, the innermost
first. Each block has a value that paths start from, variables such as `@index`,
and names of its own.

Values are written as plain text: lists in square brackets, objects as `[object]`,
nothing for `null` and for what is missing. What cannot be evaluated, such as an
unknown helper or a word as the position in a list, leaves the whole text as it was
written.

A definition makes a part known to all that follows it, in blocks and outside them,
and to the parts included from there; what an included part defines ends with it.
A part is filled in the scopes of the place that includes it, unless arguments give
it data of its own:

| arguments of the inclusion | scopes of the part |
| --- | --- |
| none, or a value that is no place in the data | as around the inclusion |
| a place in the data | that place alone |
| values with names | the innermost scope alone, its value with these entries set |
-/
import HtmlCompose.Data.Path
import HtmlCompose.Placeholder.Layout

namespace HtmlCompose
namespace Placeholder

/-- A value, with whether it is a place in the data that the template is filled with. -/
structure Located where
  value : Json
  inData : Bool

/-- A value that is no place in the data. -/
def Located.apart (value : Json) : Located := ⟨value, false⟩

/-- What a block gives to the pieces inside it. -/
structure Scope where
  /-- what paths start from -/
  here : Located
  /-- the variables written with `@` -/
  locals : List (String × Json) := []
  /-- the names given by the block -/
  names : List (String × Located) := []

/-! ### Values -/

/-- The value counts as true; zero does so only when asked for. Unlike conditions on elements,
empty lists and objects and subnormal numbers do not. -/
def truthy (includeZero : Bool) : Json → Bool
  | .null => false
  | .bool b => b
  | .number (.int n) => includeZero || n != 0
  | .number (.double x) => includeZero || x.isNormal
  | .string s => !s.isEmpty
  | .array items => !items.isEmpty
  | .object fields => !fields.isEmpty

mutual
/-- A value as plain text. -/
def valueText : Json → List Char
  | .null => []
  | .bool true => ['t', 'r', 'u', 'e']
  | .bool false => ['f', 'a', 'l', 's', 'e']
  | .number n => n.write
  | .string s => s.toList
  | .array [] => ['[', ']']
  | .array (item :: items) => '[' :: (valueText item ++ itemsText items)
  | .object _ => "[object]".toList

/-- The items after the first, and the bracket. -/
def itemsText : List Json → List Char
  | [] => [']']
  | item :: items => ',' :: ' ' :: (valueText item ++ itemsText items)
end

/-- A character of an escaped value. -/
def escapedChar (c : Char) : List Char :=
  if c = '&' then "&amp;".toList
  else if c = '<' then "&lt;".toList
  else if c = '>' then "&gt;".toList
  else if c = '"' then "&quot;".toList
  else if c = '\'' then "&#x27;".toList
  else if c = '\x60' then "&#x60;".toList
  else if c = '=' then "&#x3D;".toList
  else [c]

/-- One step into a value: a missing value stays missing, and a list takes positions only. -/
def step? (value : Option Json) (key : String) : Option (Option Json) :=
  match value with
  | some (.array items) => (Text.readCount 10 UInt64.size key.toList).map (items[·]?)
  | some (.object fields) => some (Record.get? fields key)
  | _ => some none

/-- The value at some keys; what is inside a place in the data is one too. -/
def Located.walk? (place : Located) (keys : List String) : Option (Option Located) :=
  (keys.foldlM step? (some place.value)).map fun v => v.map fun v => ⟨v, place.inData⟩

/-- The value of a name that one of the blocks gives. -/
def givenName? (scopes : List Scope) (name : String) : Option Located :=
  scopes.findSome? fun s => s.names.lookup name

/-- Where a path starts that steps out of some blocks: the innermost block stands in for blocks
that there are not. -/
def base (data : Json) (scopes : List Scope) (outward : Nat) : Located :=
  ((scopes[outward]? <|> scopes.head?).map (·.here)).getD ⟨data, true⟩

/-- The value of a path, if it has one. A name of a block stands for its value, and after steps
outward for the value that holds the key of that name. -/
def Path.value? (data : Json) (scopes : List Scope) (p : Path) : Option (Option Located) :=
  match p.origin with
  | .root => Located.walk? ⟨data, true⟩ p.keys
  | .locals =>
    let scope := scopes[p.outward]?
    some ((p.keys.head?.bind fun name => scope.bind (·.locals.lookup name)).map .apart)
  | .block =>
    match p.keys.head?.bind (givenName? scopes) with
    | some place => place.walk? (if p.outward = 0 then p.keys.tail else p.keys)
    | none => (base data scopes p.outward).walk? p.keys

/-! ### Helpers -/

/-- A comparison of whole numbers. -/
inductive Comparison where
  | less | lessOrEqual | greater | greaterOrEqual
deriving DecidableEq, Repr

/-- The comparison holds. -/
def Comparison.holds : Comparison → Int → Int → Bool
  | .less, a, b => a < b
  | .lessOrEqual, a, b => a ≤ b
  | .greater, a, b => b < a
  | .greaterOrEqual, a, b => b ≤ a

/-- The helpers that there are. -/
inductive Helper where
  | whenTrue | whenFalse | each | within | lookup | raw | log
  | equal | different | compare (c : Comparison) | both | either | negate | count
deriving DecidableEq, Repr

/-- The helper of a name. -/
def Helper.named? : String → Option Helper
  | "if" => some .whenTrue
  | "unless" => some .whenFalse
  | "each" => some .each
  | "with" => some .within
  | "lookup" => some .lookup
  | "raw" => some .raw
  | "log" => some .log
  | "eq" => some .equal
  | "ne" => some .different
  | "lt" => some (.compare .less)
  | "lte" => some (.compare .lessOrEqual)
  | "gt" => some (.compare .greater)
  | "gte" => some (.compare .greaterOrEqual)
  | "and" => some .both
  | "or" => some .either
  | "not" => some .negate
  | "len" => some .count
  | _ => none

/-- What a helper does with its arguments. -/
inductive Action where
  /-- write a value, which may be missing -/
  | value (v : Option Json)
  /-- write the body once in the scope of each block -/
  | body (scopes : List Scope)
  /-- write the body where it stands -/
  | plainBody
  /-- write the alternative -/
  | alternative

/-- A whole number of 64 bits. -/
def word? : Json → Option Int
  | .number (.int n) => if -(Nat.pow 2 63 : Int) ≤ n ∧ n < (Nat.pow 2 63 : Int) then some n else none
  | _ => none

/-- The names of a scope: the first for the value, the second for its key or position. -/
def namesOf (names : List String) (value : Located) (key : Json) : List (String × Located) :=
  match names with
  | [v] => [(v, value)]
  | [v, k] => [(k, .apart key), (v, value)]
  | _ => []

/-- The scopes of the values that a loop goes through, with their keys. -/
def loopScopes (names : List String) (keyName : String) (inData : Bool)
    (entries : List (Json × Json)) : List Scope :=
  entries.mapIdx fun i (key, value) =>
    { here := ⟨value, inData⟩
      locals := [("first", .bool (i == 0)), ("last", .bool (i + 1 == entries.length)),
        (keyName, key)]
      names := namesOf names ⟨value, inData⟩ key }

/-- The names of levels that a message may be logged with. -/
def logLevels : List String := ["error", "warn", "info", "debug", "trace"]

/-- The length of a list, an object or a text (in bytes), and zero for everything else. -/
def countOf : Json → Nat
  | .array items => items.length
  | .object fields => fields.length
  | .string s => Text.byteLength s.toList
  | _ => 0

/-- What a value holds at a position or key given as a value. -/
def lookupIn (value key : Json) : Option Json :=
  match value, key with
  | .array items, .number (.int n) => if 0 ≤ n ∧ n < (UInt64.size : Int) then items[n.toNat]? else none
  | .object fields, .string s => Record.get? fields s
  | _, _ => none

/-- What a helper does; nothing when it lacks an argument or cannot use it. -/
def Helper.act? (h : Helper) (names : List String) (args : List Located)
    (options : List (String × Json)) : Option Action :=
  let option (key : String) : Option Json := Record.get? (Record.ofList options) key
  let includeZero := match option "includeZero" with
    | some (.bool b) => b
    | _ => false
  let first := args.head?.map (·.value)
  let second := args[1]?.map (·.value)
  let pair (f : Json → Json → Option Json) : Option Action := do
    let v ← f (← first) (← second)
    some (.value (some v))
  match h with
  | .whenTrue => first.map fun v => if truthy includeZero v then .plainBody else .alternative
  | .whenFalse => first.map fun v => if truthy includeZero v then .alternative else .plainBody
  | .each => args.head?.map fun place =>
    match place.value with
    | .array (item :: items) =>
      .body (loopScopes names "index" place.inData
        ((item :: items).mapIdx fun i v => (.number (.int (i : Int)), v)))
    | .object (entry :: entries) =>
      .body (loopScopes names "key" place.inData
        ((entry :: entries).map fun (k, v) => (.string k, v)))
    | _ => .alternative
  | .within => args.head?.map fun place =>
    if truthy false place.value then
      .body [{ here := place
               names := if names.length = 1 then namesOf names place .null else [] }]
    else .alternative
  | .lookup => do
    let v ← first
    let key ← second
    some (.value (lookupIn v key))
  | .raw => some .plainBody
  | .log =>
    match option "level" with
    | some (.string level) => if logLevels.any (sameName level) then some (.body []) else none
    | _ => some (.body [])
  | .equal => pair fun a b => some (.bool (a.same b))
  | .different => pair fun a b => some (.bool (!a.same b))
  | .compare c => pair fun a b => do some (.bool (c.holds (← word? a) (← word? b)))
  | .both => pair fun a b => some (.bool (truthy false a && truthy false b))
  | .either => pair fun a b => some (.bool (truthy false a || truthy false b))
  | .negate => first.map fun v => .value (some (.bool (!truthy false v)))
  | .count => first.map fun v => .value (some (.number (.int (countOf v : Int))))

/-- The value of an action outside a block: a helper that writes nothing is the empty text. -/
def Action.nestedValue : Action → Option Json
  | .value v => v
  | _ => some (.string "")

mutual
/-- The value of a term, which may be missing. -/
def Term.value? (data : Json) (scopes : List Scope) : Term → Option (Option Located)
  | .literal v => some (some (.apart v))
  | .malformed => none
  | .path p => p.value? data scopes
  | .named _ t => t.value? data scopes
  | .call helper arguments => do
    let (args, options) ← argumentValues? data scopes arguments
    let h ← Helper.named? helper
    let action ← h.act? [] args options
    some (action.nestedValue.map .apart)

/-- The values of arguments, those with names apart; a missing value is `null`. Of arguments with
one name the last counts, and only that has to have a value. -/
def argumentValues? (data : Json) (scopes : List Scope) :
    List Term → Option (List Located × List (String × Json))
  | [] => some ([], [])
  | .named name t :: ts => do
    let (args, options) ← argumentValues? data scopes ts
    if (options.lookup name).isSome then some (args, options)
    else
      let v ← t.value? data scopes
      some (args, (name, (v.map (·.value)).getD .null) :: options)
  | t :: ts => do
    let v ← t.value? data scopes
    let (args, options) ← argumentValues? data scopes ts
    some (v.getD (.apart .null) :: args, options)
end

/-- The text of a value, which is empty for a missing one. -/
def shownText (v : Option Json) : List Char := (v.map valueText).getD []

/-- The name that a term stands for: a path as written, and else the text of the value. -/
def Term.name? (data : Json) (scopes : List Scope) : Term → Option String
  | .path p => some p.text
  | t => (t.value? data scopes).map fun v => String.ofList (shownText (v.map (·.value)))

/-- What a tag shows, and whether a helper gave it. A term that stands alone and stands for the
name of a helper shows what that gives without arguments; any other term that stands alone shows its
value. -/
def Term.shown? (data : Json) (scopes : List Scope) (alone : Bool) (t : Term) :
    Option (Option Located × Bool) := do
  if alone then
    let name ← t.name? data scopes
    if (Helper.named? name).isSome then
      some (← Term.value? data scopes (.call name []), true)
    else some (← t.value? data scopes, false)
  else some (← t.value? data scopes, true)

/-! ### Parts -/

/-- The parts defined so far, the latest first. -/
abbrev Parts := List (String × List Piece)

/-- What pieces are filled in. -/
structure Setting where
  /-- values are escaped for text -/
  escape : Bool
  /-- the whole data -/
  data : Json
  /-- the blocks around, the innermost first -/
  scopes : List Scope
  /-- what each further line of a text or a value is indented by, but not what a helper gives -/
  indent : List Char := []
  /-- the bodies of the inclusions around, the innermost first -/
  bodies : List (List Piece) := []
  /-- the body that `@partial-block` is, counted from the innermost -/
  depth : Nat := 0

/-- A text with an indent after every line end that is not its last character. -/
def indented (indent text : List Char) : List Char :=
  (text.dropLast.flatMap fun c => if c = '\n' then c :: indent else [c]) ++ text.getLast?.toList

/-- A value as written in a setting. -/
def Setting.write (s : Setting) (escaped : Bool) (v : Option Json) : List Char :=
  if escaped && s.escape then (shownText v).flatMap escapedChar else shownText v

/-- The name of the body of the inclusion around. -/
def bodyName : String := "@partial-block"

/-- The part of a name. -/
def Setting.part? (s : Setting) (parts : Parts) (name : String) : Option (List Piece) :=
  if name = bodyName then s.bodies[s.depth]? else parts.lookup name

/-- A value with the entries of some options set; only an object keeps entries of its own. -/
def mergedWith (options : List (String × Json)) (value : Json) : Json :=
  .object (Record.insertAll options (value.fields?.getD []))

/-- The scopes that a part is filled in. -/
def Setting.scopesFor (s : Setting) (args : List Located) (options : List (String × Json)) :
    List Scope :=
  let scopes := match args.head? with
    | some place => if place.inData then [{ here := place }] else s.scopes
    | none => s.scopes
  if options.isEmpty then scopes
  else
    let front : Scope := scopes.head?.getD { here := ⟨s.data, true⟩ }
    [{ front with here := .apart (mergedWith options front.here.value) }]

/-- The setting that a part of a name is filled in. -/
def Setting.inside (s : Setting) (name : String) (args : List Located)
    (options : List (String × Json)) : Setting :=
  { s with
    scopes := s.scopesFor args options
    depth := if name = bodyName then s.depth + 1 else s.depth - 1 }

/-- The parts after a definition, whose first argument is the name. -/
def defined? (s : Setting) (parts : Parts) (arguments : List Term) (body : List Piece) :
    Option Parts := do
  let (args, _) ← argumentValues? s.data s.scopes arguments
  let name ← (← args.head?).value.string?
  some ((name, body) :: parts)

/-- The parts after the definitions among some pieces, without those inside other pieces. -/
def definitions? (s : Setting) : Parts → List Piece → Option Parts
  | parts, [] => some parts
  | parts, .define arguments body :: ps => do
    definitions? s (← defined? s parts arguments body) ps
  | _, .refused :: _ => none
  | parts, _ :: ps => definitions? s parts ps

/-! ### Pieces -/

/-- Text, with the parts that are known after it. -/
abbrev Filled := Option (List Char × Parts)

/-- What is written in several scopes, one after another. -/
def inTurn (write : Scope → Parts → Filled) : List Scope → Parts → Filled
  | [], parts => some ([], parts)
  | scope :: scopes, parts => do
    let (s, parts) ← write scope parts
    let (rest, parts) ← inTurn write scopes parts
    some (s ++ rest, parts)

mutual
/-- The text of a piece, with the text of a part as a function of its setting. -/
def Piece.fill? (ofPart : Setting → Parts → List Piece → Filled) (s : Setting) (parts : Parts) :
    Piece → Filled
  | .text text => some (indented s.indent text, parts)
  | .value escaped alone t => do
    let (v, byHelper) ← t.shown? s.data s.scopes alone
    let text := s.write escaped (v.map (·.value))
    some (if byHelper then text else indented s.indent text, parts)
  | .block call body alternative => do
    let (args, options) ← argumentValues? s.data s.scopes call.arguments
    let h ← Helper.named? call.helper
    match ← h.act? call.names args options with
    | .value v => some (s.write true v, parts)
    | .plainBody => fill? ofPart s parts body
    | .alternative => fill? ofPart s parts alternative
    | .body inner =>
      inTurn (fun scope parts => fill? ofPart { s with scopes := scope :: s.scopes } parts body)
        inner parts
  | .define arguments body => do
    some ([], ← defined? s parts arguments body)
  | .refused => none
  | .inclusion t arguments indent => do
    let name ← t.name? s.data s.scopes
    let (args, options) ← argumentValues? s.data s.scopes arguments
    let part ← s.part? parts name
    let inside := s.inside name args options
    let (text, _) ← ofPart { inside with indent := s.indent ++ indent } parts part
    some (text, parts)
  | .wrapper name arguments body => do
    let (args, options) ← argumentValues? s.data s.scopes arguments
    let parts ← definitions? s parts body
    let part := (s.part? parts name).getD body
    let inside := s.inside name args options
    let (text, _) ← ofPart { inside with bodies := body :: s.bodies } parts part
    some (text, parts)

/-- The text of pieces in a row. -/
def fill? (ofPart : Setting → Parts → List Piece → Filled) (s : Setting) (parts : Parts) :
    List Piece → Filled
  | [] => some ([], parts)
  | p :: ps => do
    let (text, parts) ← p.fill? ofPart s parts
    let (rest, parts) ← fill? ofPart s parts ps
    some (text ++ rest, parts)
end

/-- The text of pieces that include parts at most so many levels deep. -/
def fillWithin : Nat → Setting → Parts → List Piece → Filled
  | 0 => fill? fun _ _ _ => none
  | n + 1 => fill? (fillWithin n)

/-- The number of levels that parts may include parts. -/
def inclusionLimit : Nat := 500

/-- The text filled with data; a text that holds no tag, or that cannot be filled, stays as it is.
Values are escaped for text if asked for. -/
def fill (escape : Bool) (data : Data) (text : String) : String :=
  let s := text.toList
  let setting : Setting :=
    { escape, data := .object data, scopes := [{ here := ⟨.object data, true⟩ }] }
  if Text.occurs braces s then
    match (parse? s).bind (fillWithin inclusionLimit setting []) with
    | some (filled, _) => String.ofList filled
    | none => text
  else text

end Placeholder
end HtmlCompose
