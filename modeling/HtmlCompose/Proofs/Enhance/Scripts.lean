/-
# Behavior scripts are read as the scripts they are meant to be

The registration and the bootstrap of a behavior go to the page as text and become nodes
there.  Each becomes one `script` element that holds its text and nothing else
(`trees_registration`, `trees_bootstrap`), whatever the compiled script and the data are,
because neither text can close the element: escaping leaves no `</` in what comes from
outside (`unclosing_escapeScript`), and none comes about where the parts meet.  The name of
the window property is not escaped, so it must not hold one itself.

What a page is asked for is told from the nodes: a registration by its `id`, a bootstrap by
the call that its text begins with.  The name of a component has letters and digits only, so
a call tells for which component it is (`isBootstrap_bootstrapText`).
-/
import HtmlCompose.Digest.Fingerprint
import HtmlCompose.Enhance.Behavior
import HtmlCompose.Proofs.Head.Assets
import HtmlCompose.Proofs.Markup.Plain

namespace HtmlCompose

open Markup

/-! ### Names of components -/

/-- A hexadecimal digit is a letter or a digit. -/
theorem Json.isAlphanum_hexDigit {n : Nat} (hn : n < 16) : (hexDigit n).isAlphanum = true := by
  have key : ∀ n : Fin 16, (hexDigit n).isAlphanum = true := by decide
  exact key ⟨n, hn⟩

/-- The name of a component is the start of a digest. -/
theorem Fingerprint.componentId_eq (uri : String) :
    componentId uri = String.ofList (((Sha256.digest (bytes uri)).flatMap fun b =>
      [Json.hexDigit (b.toNat / 16), Json.hexDigit (b.toNat % 16)]).take 12) := by
  rw [componentId, digest, hex, String.toList_ofList]

/-- The name of a component has letters and digits only. -/
theorem Fingerprint.isAlphanum_componentId (uri : String) :
    (componentId uri).toList.all Char.isAlphanum = true := by
  rw [componentId_eq, String.toList_ofList, List.all_eq_true]
  intro c hc
  obtain ⟨b, -, hb⟩ := List.mem_flatMap.1 (List.mem_of_mem_take hc)
  have hlt : b.toNat < 256 := b.toNat_lt
  rcases List.mem_pair.1 hb with rfl | rfl
  · exact Json.isAlphanum_hexDigit (by omega)
  · exact Json.isAlphanum_hexDigit (by omega)

namespace Behavior

/-! ### Text that cannot close a script -/

/-- The text does not hold `</`. -/
def Unclosing (s : List Char) : Prop := s.IsChain fun a b => ¬(a = '<' ∧ b = '/')

instance (s : List Char) : Decidable (Unclosing s) := inferInstanceAs (Decidable (List.IsChain _ _))

/-- A text cannot close a script just if it does not hold `</`. -/
theorem unclosing_iff {s : List Char} : Unclosing s ↔ ¬['<', '/'] <:+: s := by
  rw [Unclosing, List.isChain_iff_forall_rel_of_append_cons_cons]
  constructor
  · rintro h ⟨before, after, heq⟩
    exact h (show s = before ++ '<' :: '/' :: after by simpa using heq.symm) ⟨rfl, rfl⟩
  · rintro h a b before after heq ⟨rfl, rfl⟩
    exact h ⟨before, after, by simpa using heq.symm⟩

/-- Escaping leaves nothing that closes a script. -/
theorem unclosing_escapeScript (s : List Char) : Unclosing (escapeScript s) := by
  have hhead : ∀ c s, (Text.replacePair '<' '/' ['<', '\\', '/'] (c :: s)).head? = some c := by
    intro c s
    rcases s with _ | ⟨d, s⟩
    · rfl
    · rw [Text.replacePair]
      split
      · next h => rw [h.1]; rfl
      · rfl
  rw [escapeScript, Unclosing]
  fun_induction Text.replacePair with
  | case1 => exact .nil
  | case2 c => exact .singleton c
  | case3 c d rest _ ih =>
    refine List.isChain_append.2 ⟨by decide, ih, fun x hx y _ => ?_⟩
    obtain rfl : '/' = x := Option.some.inj hx
    simp
  | case4 c d rest h ih =>
    refine List.isChain_cons.2 ⟨fun y hy => ?_, ih⟩
    rw [hhead] at hy
    obtain rfl := Option.some.inj hy
    exact h

/-- What cannot close a script does not hold the closing tag of any element. -/
theorem Unclosing.holdsCloser {s : List Char} (h : Unclosing s) (name : String) :
    holdsCloser name s = false := by
  have hfold : Unclosing (Text.foldCase s) := by
    refine (List.isChain_map Char.toLower).2 (h.imp fun a b hab => ?_)
    rintro ⟨ha, hb⟩
    exact hab ⟨Text.eq_of_toLower_eq (by decide) ha, Text.eq_of_toLower_eq (by decide) hb⟩
  rw [Markup.holdsCloser, Text.occurs]
  rcases hcut : Text.cutAt ('<' :: '/' :: Text.foldCase name.toList) (Text.foldCase s) with
    _ | ⟨before, after⟩
  · rfl
  · refine absurd ⟨before, Text.foldCase name.toList ++ after, ?_⟩ (unclosing_iff.1 hfold)
    rw [Text.cutAt_eq_some hcut]
    simp

/-! ### Scripts as nodes -/

/-- A script element that holds a text. -/
def script (attrs : List Attribute) (text : String) : Tree :=
  .ofElement ⟨"script", attrs⟩ [.ofText text]

/-- Attributes that are read back as they are written. -/
def Readable (attrs : List Attribute) : Prop :=
  Element.Formed ⟨"script", attrs⟩ ∧ Element.Clean ⟨"script", attrs⟩ ∧
    ∀ a ∈ attrs, a.encoded = false

/-- **A script with a text that cannot close it is read back as it is written.** -/
theorem parse_script {attrs : List Attribute} {text : String} (hattrs : Readable attrs)
    (hne : text ≠ "") (htext : Unclosing text.toList) :
    parse (script attrs text).serialize = .ok [script attrs text] := by
  obtain ⟨hformed, hclean, hencoded⟩ := hattrs
  have htidy : ∀ t : Tree, t.content ≠ .text "" → Forest.Tidy [t] := fun t ht =>
    ⟨fun u hu => (List.mem_singleton.1 hu).symm ▸ ht, .singleton t⟩
  have hplain : Forest.Plain [script attrs text] := by
    have hvoid : ¬isVoid "script" = true := by decide
    have hraw : ¬isRawText "script" = false := by decide
    refine ⟨htidy _ nofun, ⟨⟨⟨⟨hformed, fun h => absurd h hvoid⟩, hclean, fun _ => ?_⟩,
      htidy _ ?_⟩, fun h => absurd h hraw⟩, trivial⟩
    · rw [Tree.ofText, rawText?, Option.any_some, htext.holdsCloser]
      rfl
    · simpa [Tree.ofText, Tree.content] using hne
  have hcleared : attrs.map (fun a => { a with encoded := false }) = attrs := by
    rw [List.map_congr_left (g := id) fun a ha => by
      rw [← hencoded a ha]; rfl, List.map_id]
  have hread := parse_plain hplain
  simp only [script, Forest.cleared, Tree.ofElement, Tree.ofText, Tree.cleared, Content.cleared,
    Element.cleared, hcleared] at hread
  rw [Tree.serialize, ← List.append_nil (Tree.write _)]
  exact hread

/-- The text of a registration. -/
def registrationText (globalName id compiled : String) : String :=
  let window := "window." ++ globalName
  window ++ " = " ++ window ++ " || \x7b\x7d;\n" ++ window ++ "[\"" ++ id ++
    "\"] = function (data) \x7b\n" ++
    String.ofList (escapeScript (Text.trimEnd Text.isBlank compiled.toList)) ++ "\n\x7d;"

/-- What the text of a bootstrap begins with: the call of the behavior of a component. -/
def call (globalName id : String) : String :=
  "document.addEventListener(\"DOMContentLoaded\", function () \x7b window." ++ globalName ++
    "[\"" ++ id ++ "\"]("

/-- The text of a bootstrap. -/
def bootstrapText (globalName id : String) (data : Data) : String :=
  call globalName id ++ String.ofList (escapeScript (Json.object data).write) ++ "); \x7d);"

/-- The attributes of a registration. -/
def registrationAttrs (id : String) : List Attribute := [⟨"id", registrationId id, false⟩]

/-- An empty list of attributes is read back as it is written. -/
theorem readable_nil : Readable [] := ⟨by decide, by decide, nofun⟩

/-- The attributes of a registration are read back as they are written. -/
theorem readable_registrationAttrs (id : String) : Readable (registrationAttrs id) := by
  -- the value of an attribute does not count
  have hformed : Element.Formed ⟨"script", [⟨"id", "", false⟩]⟩ := by decide
  have hclean : Element.Clean ⟨"script", [⟨"id", "", false⟩]⟩ := by decide
  refine ⟨⟨hformed.letter, hformed.name, fun a ha => ?_⟩, ⟨hclean.name, fun a ha => ?_⟩,
    fun a ha => ?_⟩ <;> obtain rfl := List.mem_singleton.1 ha
  · exact hformed.attrs ⟨"id", "", false⟩ List.mem_cons_self
  · exact hclean.attrs ⟨"id", "", false⟩ List.mem_cons_self
  · rfl

/-- Letters and digits are written in attributes as they are. -/
theorem flatMap_attributeChar {s : List Char} (h : s.all Char.isAlphanum = true) :
    s.flatMap attributeChar = s := by
  have hchar : ∀ c ∈ s, attributeChar c = [c] := fun c hc => by
    have hc' := List.all_eq_true.1 h c hc
    have hamp : c ≠ '&' := by rintro rfl; exact absurd hc' (by decide)
    have hquote : c ≠ '"' := by rintro rfl; exact absurd hc' (by decide)
    rw [attributeChar, if_neg hamp, if_neg hquote]
  rw [List.flatMap_congr hchar, List.flatMap_singleton']

/-- A script is written as its attributes and its text between the two tags. -/
theorem serialize_script (attrs : List Attribute) (text : String) :
    (script attrs text).serialize =
      "<script" ++ String.ofList (attrs.flatMap writeAttribute) ++ ">" ++ text ++ "</script>" := by
  have hvoid : isVoid "script" = false := by decide
  refine String.toList_inj.1 (String.toList_ofList.trans ?_)
  simp only [script, Tree.ofElement, Tree.ofText, Tree.write, Forest.write, writeOpenTag,
    writeCloseTag, hvoid, Bool.false_and, Bool.false_eq_true, if_false, String.toList_append]
  simp

/-- The attributes of a registration are written as its `id`. -/
theorem serialize_registrationAttrs {id : String} (hid : id.toList.all Char.isAlphanum = true) :
    String.ofList ((registrationAttrs id).flatMap writeAttribute) =
      " id=\"" ++ registrationId id ++ "\"" := by
  have hvalue : (registrationId id).toList.flatMap attributeChar = (registrationId id).toList := by
    rw [registrationId, String.toList_append, List.flatMap_append, flatMap_attributeChar hid]
    rfl
  have hempty : (registrationId id).isEmpty = false := by simp [registrationId]
  refine String.toList_inj.1 (String.toList_ofList.trans ?_)
  simp only [registrationAttrs, List.flatMap_cons, List.flatMap_nil, writeAttribute, hempty,
    hvalue, Bool.false_eq_true, if_false, String.toList_append]
  simp

-- The literals of scripts are too long to be compared character by character, so the two lemmas
-- below put the parts together for any parts.

/-- A registration is written as the script that it is. -/
theorem registration_markup {globalName id compiled : String}
    (hid : id.toList.all Char.isAlphanum = true) :
    (registration globalName id compiled).markup =
      (script (registrationAttrs id) (registrationText globalName id compiled)).serialize := by
  have hopen : "<script id=\"" = "<script" ++ " id=\"" := by decide +kernel
  have hmiddle : "\">" = "\"" ++ ">" := by decide +kernel
  have hclose : "\n\x7d;</script>" = "\n\x7d;" ++ "</script>" := by decide +kernel
  have hparts : ∀ {opening o₁ o₂ name middle m₁ m₂ w a b c id d body ending last closing : String},
      opening = o₁ ++ o₂ → middle = m₁ ++ m₂ → ending = last ++ closing →
      opening ++ name ++ middle ++ w ++ a ++ w ++ b ++ w ++ c ++ id ++ d ++ body ++ ending =
        o₁ ++ (o₂ ++ name ++ m₁) ++ m₂ ++ (w ++ a ++ w ++ b ++ w ++ c ++ id ++ d ++ body ++ last) ++
          closing := by
    rintro _ _ _ _ _ _ _ _ _ _ _ _ _ _ _ _ _ rfl rfl rfl
    simp only [String.append_assoc]
  rw [serialize_script, serialize_registrationAttrs hid]
  exact hparts hopen hmiddle hclose

/-- A bootstrap is written as the script that it is. -/
theorem bootstrap_markup {globalName id : String} {data : Data} :
    (bootstrap globalName id data).markup =
      (script [] (bootstrapText globalName id data)).serialize := by
  have hopen : "<script>document.addEventListener(\"DOMContentLoaded\", function () \x7b window." =
      "<script" ++ "" ++ ">" ++
        "document.addEventListener(\"DOMContentLoaded\", function () \x7b window." := by
    decide +kernel
  have hclose : "); \x7d);</script>" = "); \x7d);" ++ "</script>" := by decide +kernel
  have hparts : ∀ {opening start first name a id b argument ending last closing : String},
      opening = start ++ first → ending = last ++ closing →
      opening ++ name ++ a ++ id ++ b ++ argument ++ ending =
        start ++ (first ++ name ++ a ++ id ++ b ++ argument ++ last) ++ closing := by
    rintro _ _ _ _ _ _ _ _ _ _ _ rfl rfl
    simp only [String.append_assoc]
  exact (hparts hopen hclose).trans (serialize_script [] _).symm

/-! ### Texts of scripts -/

/-- The text cannot close a script, and nothing before it can end in it. -/
theorem Unclosing.append {s t : String} (hs : Unclosing s.toList) (ht : Unclosing t.toList)
    (h : s.toList.getLast? ≠ some '<' ∨ t.toList.head? ≠ some '/') :
    Unclosing (s ++ t).toList := by
  rw [String.toList_append]
  refine List.isChain_append.2 ⟨hs, ht, ?_⟩
  rintro x hx y hy ⟨rfl, rfl⟩
  exact h.elim (fun h => h hx) fun h => h hy

/-- Letters and digits cannot close a script. -/
theorem unclosing_of_alphanum {s : String} (h : s.toList.all Char.isAlphanum = true) :
    Unclosing s.toList := by
  refine unclosing_iff.2 fun hpart => ?_
  exact absurd (List.all_eq_true.1 h '<' (hpart.subset List.mem_cons_self)) (by decide)

/-- What comes first in a text comes first with more behind it. -/
theorem head?_append {s : String} {c : Char} (h : s.toList.head? = some c) (t : String) :
    (s ++ t).toList.head? = some c := by
  rw [String.toList_append, List.head?_append, h]
  rfl

/-- A text that starts with a character is not empty. -/
theorem ne_empty_of_head? {s : String} {c : Char} (h : s.toList.head? = some c) : s ≠ "" := by
  rintro rfl
  cases h

/-- What comes last in a text comes last with more before it. -/
theorem getLast?_append (s : String) {t : String} (ht : t.toList ≠ []) :
    (s ++ t).toList.getLast? = t.toList.getLast? := by
  rw [String.toList_append, List.getLast?_append_of_ne_nil _ ht]

variable {globalName id compiled : String} {data : Data}

/-- A registration starts with the name of the window. -/
theorem head?_registrationText :
    (registrationText globalName id compiled).toList.head? = some 'w' := by
  unfold registrationText
  iterate 10 refine head?_append ?_ _
  decide

/-- A bootstrap starts with the name of the document. -/
theorem head?_call : (call globalName id).toList.head? = some 'd' := by
  have hparts : ∀ {first : String}, first.toList.head? = some 'd' →
      (first ++ globalName ++ "[\"" ++ id ++ "\"](").toList.head? = some 'd' := fun h =>
    head?_append (head?_append (head?_append (head?_append h _) _) _) _
  exact hparts (by decide +kernel)

/-- No registration can close its script. -/
theorem unclosing_registrationText (hglobal : Unclosing globalName.toList)
    (hid : id.toList.all Char.isAlphanum = true) :
    Unclosing (registrationText globalName id compiled).toList := by
  have hparts : ∀ {window body : String}, Unclosing window.toList →
      window.toList.head? ≠ some '/' → Unclosing body.toList →
      Unclosing (window ++ " = " ++ window ++ " || \x7b\x7d;\n" ++ window ++ "[\"" ++ id ++
        "\"] = function (data) \x7b\n" ++ body ++ "\n\x7d;").toList := by
    intro window body hwindow hlead hbody
    have hcreated : Unclosing (window ++ " = " ++ window ++ " || \x7b\x7d;\n").toList :=
      ((hwindow.append (by decide) (.inr (by decide))).append hwindow (.inr hlead)).append
        (by decide) (.inr (by decide))
    have hnamed : Unclosing (window ++ " = " ++ window ++ " || \x7b\x7d;\n" ++ window ++ "[\"" ++
        id).toList :=
      ((hcreated.append hwindow (.inr hlead)).append (by decide) (.inr (by decide))).append
        (unclosing_of_alphanum hid) (.inl (by rw [getLast?_append _ (by decide)]; decide))
    exact ((hnamed.append (by decide) (.inr (by decide))).append hbody
      (.inl (by rw [getLast?_append _ (by decide)]; decide))).append (by decide)
        (.inr (by decide))
  refine hparts (.append (by decide) hglobal (.inl (by decide))) ?_
    (String.toList_ofList.symm ▸ unclosing_escapeScript _)
  rw [head?_append (c := 'w') (by decide)]
  decide

/-- The start of a bootstrap can neither close its script nor let anything behind it do so. -/
theorem unclosing_call (hglobal : Unclosing globalName.toList)
    (hid : id.toList.all Char.isAlphanum = true) :
    Unclosing (call globalName id).toList ∧ (call globalName id).toList.getLast? ≠ some '<' := by
  have hparts : ∀ {first : String}, Unclosing first.toList → first.toList.getLast? ≠ some '<' →
      Unclosing (first ++ globalName ++ "[\"" ++ id ++ "\"](").toList ∧
        (first ++ globalName ++ "[\"" ++ id ++ "\"](").toList.getLast? ≠ some '<' := by
    intro first hfirst hlast
    refine ⟨?_, by rw [getLast?_append _ (by decide)]; decide⟩
    have hnamed : Unclosing (first ++ globalName ++ "[\"" ++ id).toList :=
      ((hfirst.append hglobal (.inl hlast)).append (by decide) (.inr (by decide))).append
        (unclosing_of_alphanum hid) (.inl (by rw [getLast?_append _ (by decide)]; decide))
    exact hnamed.append (by decide) (.inr (by decide))
  exact hparts (by decide +kernel) (by decide +kernel)

/-- No bootstrap can close its script. -/
theorem unclosing_bootstrapText (hglobal : Unclosing globalName.toList)
    (hid : id.toList.all Char.isAlphanum = true) :
    Unclosing (bootstrapText globalName id data).toList := by
  have hargument : Unclosing (String.ofList (escapeScript (Json.object data).write)).toList :=
    String.toList_ofList.symm ▸ unclosing_escapeScript _
  obtain ⟨hcall, hlast⟩ := unclosing_call hglobal hid
  exact (hcall.append hargument (.inl hlast)).append (by decide) (.inr (by decide))

/-! ### Scripts read from their markup -/

/-- A registration is read as the script that it is. -/
theorem parse_registration (hglobal : Unclosing globalName.toList)
    (hid : id.toList.all Char.isAlphanum = true) :
    parse (registration globalName id compiled).markup =
      .ok [script (registrationAttrs id) (registrationText globalName id compiled)] := by
  rw [registration_markup hid, parse_script (readable_registrationAttrs id)
    (ne_empty_of_head? head?_registrationText) (unclosing_registrationText hglobal hid)]

/-- A bootstrap is read as the script that it is. -/
theorem parse_bootstrap (hglobal : Unclosing globalName.toList)
    (hid : id.toList.all Char.isAlphanum = true) :
    parse (bootstrap globalName id data).markup =
      .ok [script [] (bootstrapText globalName id data)] := by
  have hhead : (bootstrapText globalName id data).toList.head? = some 'd' :=
    head?_append (head?_append head?_call _) _
  rw [bootstrap_markup, parse_script readable_nil (ne_empty_of_head? hhead)
    (unclosing_bootstrapText hglobal hid)]

/-- The trees of a registration are its script alone. -/
theorem trees_registration (hglobal : Unclosing globalName.toList)
    (hid : id.toList.all Char.isAlphanum = true) :
    (registration globalName id compiled).trees =
      [script (registrationAttrs id) (registrationText globalName id compiled)] := by
  rw [Head.Asset.trees, parse_registration hglobal hid]
  rfl

/-- The trees of a bootstrap are its script alone. -/
theorem trees_bootstrap (hglobal : Unclosing globalName.toList)
    (hid : id.toList.all Char.isAlphanum = true) :
    (bootstrap globalName id data).trees = [script [] (bootstrapText globalName id data)] := by
  rw [Head.Asset.trees, parse_bootstrap hglobal hid]
  rfl

/-! ### Telling scripts apart -/

/-- The node is the registration of a component's behavior. -/
def isRegistration (id : String) (t : Tree) : Bool :=
  t.element?.any fun e => e.is "script" && e.attr? "id" == some (registrationId id)

/-- The node is a script that runs a component's behavior. -/
def isBootstrap (globalName id : String) (t : Tree) : Bool :=
  t.isElement "script" &&
    (call globalName id).toList.isPrefixOf (Forest.textContent [t]).toList

/-- The text of a script is the one it was made with. -/
theorem textContent_script (attrs : List Attribute) (text : String) :
    Forest.textContent [script attrs text] = text := by
  simp [script, Forest.textContent, Forest.preorder, Tree.preorder, Tree.ofElement, Tree.ofText,
    Tree.content, String.join]

theorem isElement_script (attrs : List Attribute) (text : String) :
    (script attrs text).isElement "script" = true :=
  show sameName "script" "script" = true by decide

/-- A script is a bootstrap if its text starts with the call. -/
theorem isBootstrap_script (attrs : List Attribute) (text : String) :
    isBootstrap globalName id (script attrs text) =
      (call globalName id).toList.isPrefixOf text.toList := by
  rw [isBootstrap, isElement_script, textContent_script, Bool.true_and]

/-- Letters and digits are no quotes. -/
theorem quote_not_mem_of_alphanum {s : String} (h : s.toList.all Char.isAlphanum = true) :
    ∀ c ∈ s.toList, (c != '"') = true := by
  intro c hc
  rw [bne_iff_ne]
  rintro rfl
  exact absurd (List.all_eq_true.1 h '"' hc) (by decide)

/-- A text up to the first quote tells what stands before it. -/
theorem eq_of_append_quote {s t : String} (hs : s.toList.all Char.isAlphanum = true)
    (ht : t.toList.all Char.isAlphanum = true) {x y : List Char}
    (h : s.toList ++ '"' :: x = t.toList ++ '"' :: y) : s = t := by
  have hcut := congrArg (List.takeWhile (· != '"')) h
  rw [List.takeWhile_append_of_pos (quote_not_mem_of_alphanum hs),
    List.takeWhile_append_of_pos (quote_not_mem_of_alphanum ht)] at hcut
  exact String.toList_inj.1 (by simpa using hcut)

/-- **A bootstrap is one for its own component.** -/
theorem isBootstrap_bootstrapText {id' : String} (hid : id.toList.all Char.isAlphanum = true)
    (hid' : id'.toList.all Char.isAlphanum = true) (attrs : List Attribute) :
    isBootstrap globalName id (script attrs (bootstrapText globalName id' data)) =
      (id == id') := by
  have hparts : ∀ first : String, ∀ rest : List Char,
      (first ++ globalName ++ "[\"" ++ id ++ "\"](").toList <+:
        (first ++ globalName ++ "[\"" ++ id' ++ "\"](").toList ++ rest → id = id' := by
    rintro first rest ⟨more, hmore⟩
    simp only [String.toList_append, List.append_assoc, List.append_cancel_left_eq] at hmore
    exact eq_of_append_quote hid hid' hmore
  rw [isBootstrap_script, bootstrapText, String.toList_append, String.toList_append,
    List.append_assoc, Bool.eq_iff_iff, List.isPrefixOf_iff_prefix, beq_iff_eq]
  constructor
  · exact hparts _ _
  · rintro rfl
    exact List.prefix_append _ _

/-- A registration is no bootstrap. -/
theorem isBootstrap_registrationText {id' : String} (attrs : List Attribute) :
    isBootstrap globalName id (script attrs (registrationText globalName id' compiled)) =
      false := by
  rw [isBootstrap_script, ← Bool.not_eq_true, List.isPrefixOf_iff_prefix]
  rintro ⟨rest, hrest⟩
  have hhead := congrArg List.head? hrest
  rw [List.head?_append, head?_call, head?_registrationText, Option.some_or] at hhead
  exact absurd hhead (by decide)

/-- Components with one registration have one name. -/
theorem registrationId_inj {id' : String} : registrationId id = registrationId id' ↔ id = id' := by
  rw [registrationId, registrationId, String.append_right_inj]

/-- The `id` of a registration is made of the component's name. -/
theorem attr?_registrationAttrs :
    Element.attr? ⟨"script", registrationAttrs id⟩ "id" = some (registrationId id) := by
  have hname : sameName "id" "id" = true := by decide
  simp [Element.attr?, registrationAttrs, Attribute.named, hname]

/-- **A registration is one of its own component.** -/
theorem isRegistration_script {id' text : String} :
    isRegistration id (script (registrationAttrs id') text) = (id == id') := by
  have hscript : Element.is ⟨"script", registrationAttrs id'⟩ "script" = true :=
    show sameName "script" "script" = true by decide
  have hsome : isRegistration id (script (registrationAttrs id') text) =
      (Element.is ⟨"script", registrationAttrs id'⟩ "script" &&
        Element.attr? ⟨"script", registrationAttrs id'⟩ "id" == some (registrationId id)) := rfl
  rw [hsome, hscript, attr?_registrationAttrs, Bool.true_and, Bool.eq_iff_iff, beq_iff_eq,
    beq_iff_eq, Option.some_inj, registrationId_inj]
  exact eq_comm

/-- A script without attributes is no registration. -/
theorem isRegistration_script_nil {text : String} :
    isRegistration id (script [] text) = false := by
  have hsome : isRegistration id (script [] text) =
      (Element.is ⟨"script", []⟩ "script" && (none == some (registrationId id))) := rfl
  rw [hsome, Bool.and_eq_false_iff]
  exact .inr rfl

end Behavior
end HtmlCompose
