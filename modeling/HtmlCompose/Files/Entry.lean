/-
# A tree of directories and files

An entry is a file with its bytes or a directory with named entries. A place in the
tree is the list of names that lead to it from the top. A path is followed from a
place segment by segment, and every step leads out of a directory: blank segments
and `.` stay there, `..` leads one up (at the top nowhere), any other leads to the
entry of that name.
-/
import HtmlCompose.Files.Path
import HtmlCompose.Text.Search

namespace HtmlCompose
namespace Files

/-- A file or a directory. -/
inductive Entry where
  | file (bytes : List UInt8)
  | directory (entries : List (String × Entry))
deriving Repr, Inhabited

namespace Entry

/-- A directory with nothing in it. -/
def empty : Entry := directory []

/-- The longest name of an entry, in bytes. -/
def maxNameLength : Nat := 255

/-- The longest path that can be followed, in bytes. -/
def maxPathLength : Nat := 4095

/-- The entry at a place. -/
def find (e : Entry) : List String → Except Failure Entry
  | [] => .ok e
  | name :: rest =>
    match e with
    | file _ => .error .notDirectory
    | directory entries =>
      if maxNameLength < Text.byteLength name.toList then .error .nameTooLong
      else
        match entries.lookup name with
        | some inner => inner.find rest
        | none => .error .missing

/-- The place that segments lead to from a place; all but the last have to be directories. -/
def follow (top : Entry) (place : List String) : List String → Except Failure (List String)
  | [] => .ok place
  | segment :: rest =>
    match top.find place with
    | .error failure => .error failure
    | .ok (file _) => .error .notDirectory
    | .ok (directory _) =>
      let next :=
        if segment.isEmpty || segment == "." then place
        else if segment == ".." then place.dropLast
        else place ++ [segment]
      top.follow next rest

/-- The place that a path leads to from a place. -/
def locate (top : Entry) (here : List String) (path : String) : Except Failure (List String) :=
  if path.isEmpty then .error .missing
  else if path.toList.elem '\x00' then
    .error (.other "file name contained an unexpected NUL byte")
  else if maxPathLength < Text.byteLength path.toList then .error .nameTooLong
  else top.follow (if isAbsolute path then [] else here) (segments '/' path)

/-- The text of the file at a path, seen from a place. -/
def read (top : Entry) (here : List String) : Reader := fun path => do
  match ← top.find (← top.locate here path) with
  | directory _ => .error .isDirectory
  | file bytes =>
    match String.fromUTF8? ⟨bytes.toArray⟩ with
    | some text => .ok text
    | none => .error .notText

/-- The tree with an entry put at a place, in new directories as far as there are none. -/
def put (new : Entry) : List String → Entry → Entry
  | [], _ => new
  | name :: rest, e =>
    let entries := match e with
      | directory entries => entries
      | file _ => []
    let inner := put new rest ((entries.lookup name).getD empty)
    directory ((name, inner) :: entries.filter (·.1 != name))

/-- The tree with a directory at a place, unless there is something already. -/
def makeDirectory (top : Entry) (place : List String) : Entry :=
  match top.find place with
  | .ok _ => top
  | .error _ => put empty place top

/-- The tree without the entry at a place. -/
def remove : List String → Entry → Entry
  | [], e => e
  | _, file bytes => file bytes
  | [name], directory entries => directory (entries.filter (·.1 != name))
  | name :: next :: rest, directory entries =>
    directory (entries.map fun (n, e) => (n, if n == name then remove (next :: rest) e else e))

/-- The tree after a text has been written to a path, seen from a place: the directory has to be
there, and no directory may stand at the path. -/
def write (top : Entry) (here : List String) (path text : String) : Except Failure Entry := do
  let place ← top.locate here path
  match top.find place with
  | .ok (directory _) => .error .isDirectory
  | .ok (file _) => .ok (put (file text.toUTF8.toList) place top)
  | .error .missing =>
    match ← top.find place.dropLast with
    | directory _ => .ok (put (file text.toUTF8.toList) place top)
    | file _ => .error .notDirectory
  | .error failure => .error failure

end Entry
end Files
end HtmlCompose
