/-
# What a fingerprint tells

A fingerprint is the hexadecimal form of a digest, and that form loses nothing
(`hex_injective`): equal fingerprints are equal digests of two streams.

For one template and one script the stream tells the data and the mode
(`stream_cut`).  Nothing has to be known about the eight bytes of a length for this:
all that surrounds the data in the two streams is equally long, so the texts of the
data are equally long as well.

The data is told from any stream, because the text of an object ends at its own bracket
(`data_cut`), and so are the script and the mode once the template is known.  The template
is told by its length alone, of which a stream has the last 64 bits.  So a stream tells all
four if the templates have less than `2 ^ 64` bytes (`stream_eq_iff`), as every text in the
memory of a machine has.
-/
import HtmlCompose.Digest.Fingerprint
import HtmlCompose.Proofs.Data.Text

namespace HtmlCompose

namespace Fingerprint

/-- A text is told by its bytes. -/
theorem bytes_injective : Function.Injective bytes := fun s t h => by
  rw [bytes, bytes, String.toUTF8_eq_toByteArray, String.toUTF8_eq_toByteArray] at h
  exact String.toByteArray_inj.1 (ByteArray.ext (Array.toList_inj.1 h))

/-- The hexadecimal form of bytes is that of no other bytes. -/
theorem hex_injective : Function.Injective hex := by
  intro a b h
  have hchars := String.ofList_injective h
  clear h
  induction a generalizing b with
  | nil =>
    cases b with
    | nil => rfl
    | cons y b => simp at hchars
  | cons x a ih =>
    cases b with
    | nil => simp at hchars
    | cons y b =>
      simp only [List.flatMap_cons, List.cons_append, List.nil_append, List.cons.injEq] at hchars
      obtain ⟨hhigh, hlow, htail⟩ := hchars
      have hx := x.toNat_lt
      have hy := y.toNat_lt
      have hhigh' := Json.hexDigit_inj (by omega) (by omega) hhigh
      have hlow' := Json.hexDigit_inj (by omega) (by omega) hlow
      rw [ih htail, UInt8.toNat_inj.1 (show x.toNat = y.toNat by omega)]

@[simp] theorem length_littleEndian64 (n : Nat) : (littleEndian64 n).length = 8 := by
  rw [littleEndian64, List.length_map, List.length_range]

/-- A frame is eight bytes longer than its content. -/
theorem length_frame (content : List UInt8) : (frame content).length = 8 + content.length := by
  rw [frame, List.length_append, length_littleEndian64]

/-- The modes have different bytes. -/
theorem modeByte_injective : Function.Injective modeByte := by
  intro m n h
  cases m <;> cases n <;> first | rfl | exact absurd h (by decide)

/-- **For one template and script the stream tells the data and the mode.** -/
theorem stream_cut {data data' : Data} {template : String} {script : Option String}
    {mode mode' : RenderMode}
    (h : stream data template script mode = stream data' template script mode') :
    data = data' ∧ mode = mode' := by
  have hlength := congrArg List.length h
  simp only [stream, List.length_append, length_frame, List.length_singleton] at hlength
  obtain ⟨hparts, hmode⟩ := List.append_inj' h rfl
  have hframes := List.append_cancel_right (List.append_cancel_right hparts)
  obtain ⟨-, hdata⟩ := List.append_inj hframes (by simp)
  exact ⟨Json.object.inj (Json.print_injective (bytes_injective hdata)),
    modeByte_injective (List.cons.inj hmode).1⟩

/-- Numbers with the same last byte agree in it. -/
theorem ofNat_eq_mod {a b : Nat} (h : UInt8.ofNat a = UInt8.ofNat b) : a % 256 = b % 256 := by
  have := congrArg UInt8.toNat h
  simpa only [UInt8.toNat_ofNat'] using this

/-- Eight bytes tell a number below `2 ^ 64`. -/
theorem littleEndian64_inj {m n : Nat} (hm : m < 2 ^ 64) (hn : n < 2 ^ 64)
    (h : littleEndian64 m = littleEndian64 n) : m = n := by
  have hdigit : ∀ i < 8, m / Nat.pow 256 i % 256 = n / Nat.pow 256 i % 256 := by
    intro i hi
    exact ofNat_eq_mod (List.map_inj_left.1 h i (List.mem_range.2 hi))
  have h0 := hdigit 0 (by decide)
  have h1 := hdigit 1 (by decide)
  have h2 := hdigit 2 (by decide)
  have h3 := hdigit 3 (by decide)
  have h4 := hdigit 4 (by decide)
  have h5 := hdigit 5 (by decide)
  have h6 := hdigit 6 (by decide)
  have h7 := hdigit 7 (by decide)
  norm_num at h0 h1 h2 h3 h4 h5 h6 h7
  omega

/-- A frame is read from the left in one way only. -/
theorem frame_cut {a b r s : List UInt8} (ha : a.length < 2 ^ 64) (hb : b.length < 2 ^ 64)
    (h : frame a ++ r = frame b ++ s) : a = b ∧ r = s := by
  rw [frame, frame, List.append_assoc, List.append_assoc] at h
  obtain ⟨hlength, hrest⟩ := List.append_inj h (by simp)
  exact List.append_inj hrest (littleEndian64_inj ha hb hlength)

@[simp] theorem length_bytes (s : String) : (bytes s).length = s.utf8ByteSize := by
  rw [bytes, String.toUTF8_eq_toByteArray, Array.length_toList]
  rfl

/-- Of two texts at the front of the same bytes one begins with the other. -/
theorem prefix_of_bytes {s t : String} {q r : List UInt8} (h : bytes s ++ q = bytes t ++ r) :
    s.toList <+: t.toList ∨ t.toList <+: s.toList := by
  have key : ∀ {s t : String}, bytes s <+: bytes t → s.toList <+: t.toList := by
    rintro s t ⟨more, hmore⟩
    refine List.isPrefix_of_utf8Encode_append_eq_utf8Encode ⟨more.toArray⟩ ?_
    rw [String.utf8Encode_toList, String.utf8Encode_toList]
    refine ByteArray.ext (Array.toList_inj.1 ?_)
    rw [ByteArray.data_append, Array.toList_append]
    exact hmore
  exact (List.prefix_or_prefix_of_prefix ⟨q, h⟩ ⟨r, rfl⟩).imp key key

/-- The frame of data is read from the left in one way only. -/
theorem data_cut {data data' : Data} {q r : List UInt8}
    (h : frame (bytes (Json.object data).print) ++ q =
      frame (bytes (Json.object data').print) ++ r) : data = data' ∧ q = r := by
  have hdata : data = data' := by
    rw [frame, frame, List.append_assoc, List.append_assoc] at h
    replace h := (List.append_inj h (by simp)).2
    rcases prefix_of_bytes h with ⟨more, hmore⟩ | ⟨more, hmore⟩ <;>
      rw [Json.print, Json.print, String.toList_ofList, String.toList_ofList] at hmore
    · exact (Json.object_cut (hmore.trans (List.append_nil _).symm)).1
    · exact (Json.object_cut (hmore.trans (List.append_nil _).symm)).1.symm
  subst hdata
  exact ⟨rfl, List.append_cancel_left h⟩

/-- The part of the script tells the script, and whether there is one. -/
theorem scriptBytes_injective : Function.Injective scriptBytes := by
  intro script script' h
  rcases script with _ | source <;> rcases script' with _ | source'
  · rfl
  · exact absurd (List.cons.inj h).1 (by decide)
  · exact absurd (List.cons.inj h).1 (by decide)
  · have hframe : frame (bytes source) = frame (bytes source') := (List.cons.inj h).2
    rw [bytes_injective (List.append_inj hframe (by simp)).2]

/-- A stream tells all that it is made from if eight bytes tell the length of the template. -/
theorem stream_parts {data data' : Data} {template template' : String}
    {script script' : Option String} {mode mode' : RenderMode}
    (hfits : template.utf8ByteSize < 2 ^ 64) (hfits' : template'.utf8ByteSize < 2 ^ 64)
    (h : stream data template script mode = stream data' template' script' mode') :
    data = data' ∧ template = template' ∧ script = script' ∧ mode = mode' := by
  obtain ⟨hparts, hmode⟩ := List.append_inj' h rfl
  rw [List.append_assoc, List.append_assoc] at hparts
  obtain ⟨rfl, hrest⟩ := data_cut hparts
  obtain ⟨htemplate, hscript⟩ := frame_cut (by simpa using hfits) (by simpa using hfits') hrest
  exact ⟨rfl, bytes_injective htemplate, scriptBytes_injective hscript,
    modeByte_injective (List.cons.inj hmode).1⟩

/-- A stream of less than `2 ^ 64` bytes tells all that it is made from. -/
theorem stream_injective {data data' : Data} {template template' : String}
    {script script' : Option String} {mode mode' : RenderMode}
    (hfits : (stream data template script mode).length < 2 ^ 64)
    (h : stream data template script mode = stream data' template' script' mode') :
    data = data' ∧ template = template' ∧ script = script' ∧ mode = mode' := by
  have hfits' := h ▸ hfits
  simp only [stream, List.length_append, length_frame, length_bytes] at hfits hfits'
  exact stream_parts (by omega) (by omega) h

/-- **The bytes that are digested tell what they stand for.**  Two streams are the same only for
the same data, template, script and mode, whatever the data holds and however deep it is nested,
an absent script and an empty one being different.  The templates have to have less than `2 ^ 64`
bytes, so that their lengths are what the stream says. -/
theorem stream_eq_iff {data data' : Data} {template template' : String}
    {script script' : Option String} {mode mode' : RenderMode}
    (hfits : template.utf8ByteSize < 2 ^ 64) (hfits' : template'.utf8ByteSize < 2 ^ 64) :
    stream data template script mode = stream data' template' script' mode' ↔
      data = data' ∧ template = template' ∧ script = script' ∧ mode = mode' := by
  refine ⟨stream_parts hfits hfits', ?_⟩
  rintro ⟨rfl, rfl, rfl, rfl⟩
  rfl

/-- The hypotheses are satisfiable: a quote in the data does not end it, and a character does not
move from the template to the script. -/
theorem stream_eq_iff_boundaries :
    stream [("a", .string "\",\"b\":\"")] "ab" (some "c") .root ≠
      stream [("a", .string ""), ("b", .string "")] "a" (some "bc") .root := by
  intro h
  obtain ⟨hdata, -⟩ := (stream_eq_iff (by decide) (by decide)).1 h
  exact absurd (congrArg List.length hdata) (by decide)

/-- Equal fingerprints are equal digests. -/
theorem digest_eq_of_of_eq {data data' : Data} {template template' : String}
    {script script' : Option String} {mode mode' : RenderMode}
    (h : Fingerprint.of data template script mode = Fingerprint.of data' template' script' mode') :
    Sha256.digest (stream data template script mode) =
      Sha256.digest (stream data' template' script' mode') :=
  hex_injective h

end Fingerprint
end HtmlCompose
