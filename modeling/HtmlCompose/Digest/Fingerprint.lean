/-
# Fingerprints

A render is known by the SHA-256 digest of what it is made from: data, template,
script and mode. The bytes that are digested are frames, each preceded by its
length as eight bytes, lowest first:

| part | bytes |
| --- | --- |
| data | a frame with the data as JSON |
| template | a frame |
| script | a byte `1` and a frame, or a byte `0` when there is none |
| mode | `r` for a root render, `d` for a descendant |
-/
import HtmlCompose.Data.Json.Printer
import HtmlCompose.Digest.Sha256

namespace HtmlCompose

/-- Whether a render makes a whole document or a part of one. -/
inductive RenderMode where
  | root
  | descendant
deriving DecidableEq, Repr

/-- The hexadecimal digest of what a render is made from. -/
abbrev Fingerprint := String

namespace Fingerprint

/-- The bytes of a text in UTF-8. -/
def bytes (s : String) : List UInt8 := s.toUTF8.data.toList

/-- A number as eight bytes, lowest first. -/
def littleEndian64 (n : Nat) : List UInt8 :=
  (List.range 8).map fun i => UInt8.ofNat (n / Nat.pow 256 i)

/-- Bytes preceded by their number. -/
def frame (content : List UInt8) : List UInt8 :=
  littleEndian64 content.length ++ content

/-- The bytes of an optional script. -/
def scriptBytes : Option String → List UInt8
  | some source => 1 :: frame (bytes source)
  | none => [0]

/-- The byte of a mode. -/
def modeByte : RenderMode → UInt8
  | .root => 'r'.toUInt8
  | .descendant => 'd'.toUInt8

/-- The bytes that stand for the inputs of a render. -/
def stream (data : Data) (template : String) (script : Option String) (mode : RenderMode) :
    List UInt8 :=
  frame (bytes (Json.object data).print) ++ frame (bytes template) ++ scriptBytes script ++
    [modeByte mode]

/-- Bytes as pairs of hexadecimal digits. -/
def hex (content : List UInt8) : String :=
  String.ofList (content.flatMap fun b => [Json.hexDigit (b.toNat / 16), Json.hexDigit (b.toNat % 16)])

/-- The digest of a text in hexadecimal. -/
def digest (text : String) : String := hex (Sha256.digest (bytes text))

/-- The fingerprint of the inputs of a render. -/
def of (data : Data) (template : String) (script : Option String) (mode : RenderMode) :
    Fingerprint :=
  hex (Sha256.digest (stream data template script mode))

/-- A name for a component that can be part of an identifier: the start of its digest. -/
def componentId (uri : String) : String :=
  String.ofList ((digest uri).toList.take 12)

end Fingerprint
end HtmlCompose
