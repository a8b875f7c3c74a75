/-
# Paths and what can be read at them

A path is a text with segments between slashes; a path that starts with a slash is
absolute. Joining puts a relative path behind a base. A reader tells for every path
what a text file there holds, or why it cannot be read.
-/

namespace HtmlCompose
namespace Files

/-- The path starts at the top. -/
def isAbsolute (path : String) : Bool := path.toList.head? == some '/'

/-- A path taken from a base: a relative one stands behind the base and a slash, an absolute one
for itself. -/
def join (base path : String) : String :=
  if isAbsolute path then path
  else if base.isEmpty || base.toList.getLast? == some '/' then base ++ path
  else base ++ "/" ++ path

/-- Why nothing can be read from, or written to, a path. -/
inductive Failure where
  /-- there is nothing -/
  | missing
  /-- a file stands where the path goes on -/
  | notDirectory
  /-- there is a directory -/
  | isDirectory
  | nameTooLong
  /-- the bytes are no UTF-8 -/
  | notText
  | other (message : String)
deriving DecidableEq, Repr

/-- The reason in words. -/
def Failure.message : Failure → String
  | .missing => "No such file or directory (os error 2)"
  | .notDirectory => "Not a directory (os error 20)"
  | .isDirectory => "Is a directory (os error 21)"
  | .nameTooLong => "File name too long (os error 36)"
  | .notText => "stream did not contain valid UTF-8"
  | .other message => message

/-- What the text files at all paths hold. -/
abbrev Reader := String → Except Failure String

/-- The text of a file, or nothing if there is no file. -/
def Reader.optional (files : Reader) (path : String) : Except Failure (Option String) :=
  match files path with
  | .ok text => .ok (some text)
  | .error .missing => .ok none
  | .error failure => .error failure

end Files
end HtmlCompose
