/-
# Command-line options

| option | sets |
| --- | --- |
| a plain argument | the address of the component, exactly one |
| `-r`, `--root` | the base directory, by default the current one |
| `-d`, `--data` | data for the component, as JSON |
| `--data-file` | a file with that data; not together with `--data` |
| `-c`, `--config` | a configuration file |
| `-o`, `--output` | a file for the page |
| `--no-cache` | no caches |
| `--check` | only parse the template |

The value of an option is the next argument, or stands behind `=`, or directly
behind a short name. No option may be given twice, a file name is never empty, and
what follows `--` is no option.
-/
import HtmlCompose.Text.Search

namespace HtmlCompose
namespace CommandLine

/-- An option with a value. -/
inductive Setting where
  | root | data | dataFile | config | output
deriving DecidableEq, Repr

/-- An option without a value. -/
inductive Switch where
  | noCache | check
deriving DecidableEq, Repr

/-- An argument that has been read. -/
inductive Item where
  | plain (text : String)
  | setting (s : Setting) (value : String)
  | switch (s : Switch)
deriving DecidableEq, Repr

/-- The option with a value that has a long name. -/
def longSetting? : List Char → Option Setting
  | ['r', 'o', 'o', 't'] => some .root
  | ['d', 'a', 't', 'a'] => some .data
  | ['d', 'a', 't', 'a', '-', 'f', 'i', 'l', 'e'] => some .dataFile
  | ['c', 'o', 'n', 'f', 'i', 'g'] => some .config
  | ['o', 'u', 't', 'p', 'u', 't'] => some .output
  | _ => none

/-- The option with a value that has a short name. -/
def shortSetting? : Char → Option Setting
  | 'r' => some .root
  | 'd' => some .data
  | 'c' => some .config
  | 'o' => some .output
  | _ => none

/-- The option without a value that has a long name. -/
def switch? : List Char → Option Switch
  | ['n', 'o', '-', 'c', 'a', 'c', 'h', 'e'] => some .noCache
  | ['c', 'h', 'e', 'c', 'k'] => some .check
  | _ => none

/-- The option that an argument is, if it is one: its setting with the value attached to it, or a
switch. -/
inductive Parsed where
  | plain
  | setting (s : Setting) (attached : Option String)
  | switch (s : Switch)
  | unknown

/-- Reads one argument. -/
def Parsed.of (argument : String) : Parsed :=
  match argument.toList with
  | '-' :: '-' :: long =>
    let (name, attached) := match Text.cutAt ['='] long with
      | some (name, value) => (name, some (String.ofList value))
      | none => (long, none)
    match longSetting? name, switch? name, attached with
    | some s, _, _ => .setting s attached
    | none, some s, none => .switch s
    | _, _, _ => .unknown
  | '-' :: short :: rest =>
    match shortSetting? short with
    | none => .unknown
    | some s =>
      .setting s (match rest with
        | [] => none
        | '=' :: value => some (String.ofList value)
        | value => some (String.ofList value))
  | _ => .plain

/-- The argument cannot be the value of an option before it. -/
def startsOption (argument : String) : Bool :=
  match argument.toList with
  | '-' :: _ :: _ => true
  | _ => false

/-- The arguments read one after another. -/
def items? : List String → Option (List Item)
  | [] => some []
  | argument :: rest =>
    if argument = "--" then some (rest.map .plain)
    else
      match Parsed.of argument with
      | .plain => (items? rest).map (.plain argument :: ·)
      | .switch s => (items? rest).map (.switch s :: ·)
      | .setting s (some value) => (items? rest).map (.setting s value :: ·)
      | .setting s none =>
        match rest with
        | value :: rest =>
          if startsOption value then none else (items? rest).map (.setting s value :: ·)
        | [] => none
      | .unknown => none

/-- What a run is asked to do. -/
structure Options where
  uri : String
  root : String := "."
  data : Option String := none
  dataFile : Option String := none
  config : Option String := none
  output : Option String := none
  noCache : Bool := false
  check : Bool := false
deriving DecidableEq, Repr

/-- The values given for an option. -/
def values (s : Setting) (items : List Item) : List String :=
  items.filterMap fun
    | .setting t value => if t = s then some value else none
    | _ => none

/-- At most one value. -/
def single? : List String → Option (Option String)
  | [] => some none
  | [value] => some (some value)
  | _ => none

/-- At most one file name, which is not empty. -/
def singleFile? (values : List String) : Option (Option String) :=
  (single? values).filter fun value => value.all (!·.isEmpty)

/-- A switch given at most once. -/
def once? (s : Switch) (items : List Item) : Option Bool :=
  match items.count (.switch s) with
  | 0 => some false
  | 1 => some true
  | _ => none

/-- The plain arguments. -/
def plainArguments (items : List Item) : List String :=
  items.filterMap fun
    | .plain text => some text
    | _ => none

/-- The options of some arguments, if they are correct. -/
def Options.parse? (arguments : List String) : Option Options := do
  let items ← items? arguments
  let uri ← (← single? (plainArguments items))
  let root ← singleFile? (values .root items)
  let data ← single? (values .data items)
  let dataFile ← singleFile? (values .dataFile items)
  let config ← singleFile? (values .config items)
  let output ← singleFile? (values .output items)
  let noCache ← once? .noCache items
  let check ← once? .check items
  if data.isSome && dataFile.isSome then none
  else some { uri, root := root.getD ".", data, dataFile, config, output, noCache, check }

end CommandLine
end HtmlCompose
