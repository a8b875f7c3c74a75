/-
# What the text of a style declares

A record of style properties is written as the declarations of its entries, in key order, with names
in kebab case and without null values (`collapse_eq_write`).  So a text declares what the record
has, but two keys of a record may be two spellings of one name: each of them is declared then.

Declarations are read back from the text that they are written as if they are plain (`read_write`):
neither part is empty or has blanks at its ends or a semicolon in it, and the name has no colon.
What a text declares is plain, also with its names in kebab case (`plain_of_mem_expand`).

So a record comes back from its text if and only if its keys ascend and have no capitals, and its
entries are plain texts; and a text expands to such a record, but for capitals (`expand_collapse`).
-/
import HtmlCompose.Data.Style
import HtmlCompose.Proofs.Data.Records
import HtmlCompose.Proofs.Text.Search

namespace HtmlCompose

namespace Style

/-- A property in kebab case. -/
def kebab (name : String) : String := String.ofList (kebabCase name.toList)

/-- What a record declares: properties in kebab case with their values as text, in the order of the
keys. -/
def declared (style : Data) : List (String × String) :=
  (style.filter fun entry => !entry.2.isNull).map fun entry => (kebab entry.1, entry.2.toText)

/-- Declarations as text. -/
def write (declarations : List (String × String)) : String :=
  "; ".intercalate (declarations.map fun declaration => declaration.1 ++ ": " ++ declaration.2)

/-- The declarations that a text holds, in its order. -/
def read (text : String) : List (String × Json) :=
  (text.toList.splitOn ';').filterMap declaration?

/-- The characters of declarations that are written as text. -/
theorem toList_write (declarations : List (String × String)) :
    (write declarations).toList = [';', ' '].intercalate (declarations.map fun declaration =>
      declaration.1.toList ++ [':', ' '] ++ declaration.2.toList) := by
  rw [write, String.toList_intercalate, List.map_map]
  refine congrArg _ (List.map_congr_left fun declaration _ => ?_)
  rw [Function.comp, String.toList_append, String.toList_append]
  rfl

/-- **A record is written as its declarations.** -/
theorem collapse_eq_write (style : Data) : collapse style = write (declared style) := by
  rw [← String.toList_inj, toList_write, collapse, String.toList_ofList, declared, List.map_map]
  refine congrArg _ (List.map_congr_left fun entry _ => ?_)
  rw [Function.comp, kebab, String.toList_ofList]
  rfl

/-! ### Reading declarations back -/

/-- A declaration that can be read back. -/
def Plain (declaration : String × String) : Prop :=
  (declaration.1 ≠ "" ∧ trimmed declaration.1 = declaration.1 ∧
    ':' ∉ declaration.1.toList ∧ ';' ∉ declaration.1.toList) ∧
  declaration.2 ≠ "" ∧ trimmed declaration.2 = declaration.2 ∧ ';' ∉ declaration.2.toList

instance (declaration : String × String) : Decidable (Plain declaration) :=
  inferInstanceAs (Decidable ((_ ∧ _ ∧ _ ∧ _) ∧ _ ∧ _ ∧ _))

/-- A text without blanks at its ends is one as a list of characters as well. -/
theorem trim_toList {s : String} (h : trimmed s = s) : Text.trim s.toList = s.toList := by
  rw [← String.toList_ofList (l := Text.trim s.toList)]
  exact congrArg String.toList h

/-- A space in front of a declaration does not matter. -/
theorem declaration?_cons_space (text : List Char) :
    declaration? (' ' :: text) = declaration? text := by
  rw [declaration?, Text.cutAt, Text.after?, if_neg (by decide), declaration?]
  rcases Text.cutAt [':'] text with _ | ⟨name, value⟩
  · rfl
  · rw [Option.map_some]
    simp only [Text.trim_cons_space]

/-- A property that is written is read as a declaration. -/
theorem declaration?_write {name value : String} (h : Plain (name, value)) :
    declaration? (name.toList ++ [':', ' '] ++ value.toList) = some (name, .string value) := by
  obtain ⟨⟨hname, htrimName, hcolon, -⟩, hvalue, htrimValue, -⟩ := h
  have hcut : Text.cutAt [':'] (name.toList ++ [':', ' '] ++ value.toList) =
      some (name.toList, ' ' :: value.toList) := by
    rw [List.append_assoc]
    exact Text.cutAt_singleton hcolon _
  have hempty : name.toList.isEmpty = false ∧ value.toList.isEmpty = false := by
    simp [hname, hvalue]
  simp only [declaration?, hcut, Text.trim_cons_space, trim_toList htrimName,
    trim_toList htrimValue, hempty, Bool.or_self, Bool.false_eq_true, if_false,
    String.ofList_toList]

/-- **Plain declarations are read back from their text.** -/
theorem read_write {declarations : List (String × String)}
    (h : ∀ declaration ∈ declarations, Plain declaration) :
    read (write declarations) =
      declarations.map fun declaration => (declaration.1, .string declaration.2) := by
  rw [read, toList_write]
  rcases declarations with _ | ⟨first, rest⟩
  · rfl
  obtain ⟨hfirst, hrest⟩ := List.forall_mem_cons.1 h
  have hpiece : ∀ {declaration}, Plain declaration →
      ';' ∉ declaration.1.toList ++ [':', ' '] ++ declaration.2.toList := fun hplain => by
    simp [hplain.1.2.2.2, hplain.2.2.2]
  rw [List.map_cons, Text.intercalate_space, List.splitOn_intercalate _ ?_ (List.cons_ne_nil _ _),
    List.filterMap_cons_some (declaration?_write hfirst), List.map_map, List.filterMap_map,
    List.map_cons, ← List.filterMap_eq_map]
  · refine congrArg _ (List.filterMap_congr fun declaration hmem => ?_)
    exact (declaration?_cons_space _).trans (declaration?_write (hrest declaration hmem))
  · rw [List.map_map]
    refine List.forall_mem_cons.2 ⟨hpiece hfirst, List.forall_mem_map.2 fun declaration hmem => ?_⟩
    rw [Function.comp, List.mem_cons, not_or]
    exact ⟨by decide, hpiece (hrest declaration hmem)⟩

/-! ### What a text declares -/

/-- A declaration that has been read from a piece is plain. -/
theorem plain_of_declaration? {text : List Char} {declaration : String × Json}
    (h : declaration? text = some declaration) (hsemicolon : ';' ∉ text) :
    ∃ value, declaration.2 = .string value ∧ Plain (declaration.1, value) := by
  unfold declaration? at h
  split at h
  next name value hcut =>
    dsimp only at h
    split_ifs at h with hempty
    cases h
    rw [Bool.or_eq_true, not_or, Bool.not_eq_true, Bool.not_eq_true] at hempty
    have htext := Text.cutAt_eq_some hcut
    have hcolon := Text.occurs_singleton.1 (Text.occurs_of_cutAt (List.cons_ne_nil _ _) hcut)
    have hparts : ';' ∉ name ∧ ';' ∉ value := by
      rw [htext] at hsemicolon
      simp only [List.mem_append, not_or] at hsemicolon
      exact ⟨hsemicolon.1.1, hsemicolon.2⟩
    have htrimmed : ∀ part : List Char,
        trimmed (String.ofList (Text.trim part)) = String.ofList (Text.trim part) := fun part => by
      rw [trimmed, String.toList_ofList, Text.trim_trim]
    refine ⟨_, rfl, ⟨?_, htrimmed name, ?_, ?_⟩, ?_, htrimmed value, ?_⟩
    · simpa using hempty.1
    · rw [String.toList_ofList]
      exact fun hmem => hcolon ((Text.trim_sublist name).subset hmem)
    · rw [String.toList_ofList]
      exact fun hmem => hparts.1 ((Text.trim_sublist name).subset hmem)
    · simpa using hempty.2
    · rw [String.toList_ofList]
      exact fun hmem => hparts.2 ((Text.trim_sublist value).subset hmem)
  next => cases h

/-- A character that is neither a hyphen nor a small letter is in a name in kebab case only if it is
in the name. -/
theorem mem_of_mem_kebabCase {c : Char} (hyphen : c ≠ '-') (hlower : c.isLower = false)
    {name : List Char} (h : c ∈ kebabCase name) : c ∈ name := by
  obtain ⟨d, hd, hc⟩ := List.mem_flatMap.1 h
  split_ifs at hc
  · rcases List.mem_cons.1 hc with rfl | hc
    · exact absurd rfl hyphen
    · rwa [Text.eq_of_toLower_eq hlower (List.mem_singleton.1 hc).symm] at hd
  · rwa [List.mem_singleton.1 hc]

/-- A blank is no letter. -/
theorem isLower_of_isBlank {c : Char} (h : Text.isBlank c = true) : c.isLower = false := by
  rw [Bool.eq_false_iff]
  intro hlower
  have hbounds : (decide (97 ≤ c.val) && decide (c.val ≤ 122)) = true := hlower
  have hrange : 97 ≤ c.toNat ∧ c.toNat ≤ 122 := by
    simp only [Bool.and_eq_true, decide_eq_true_eq, UInt32.le_iff_toNat_le] at hbounds
    exact hbounds
  simp only [Text.isBlank, Bool.or_eq_true, Bool.and_eq_true, decide_eq_true_eq, beq_iff_eq] at h
  omega

/-- Kebab case leaves the ends of a name without blanks. -/
theorem trim_kebabCase {name : List Char} (h : Text.trim name = name) :
    Text.trim (kebabCase name) = kebabCase name := by
  obtain ⟨hfirst, hlast⟩ := Text.trim_eq_self_iff.1 h
  refine Text.trim_eq_self_iff.2 ⟨fun c hc => ?_, fun c hc => ?_⟩
  · rcases name with _ | ⟨d, name⟩
    · cases hc
    · rw [kebabCase, List.flatMap_cons] at hc
      split_ifs at hc
      · cases hc; decide
      · cases hc; exact hfirst _ rfl
  · rcases name.eq_nil_or_concat with rfl | ⟨name, d, rfl⟩
    · cases hc
    · have hd : Text.isBlank d = false := hlast d (by simp)
      rw [kebabCase, List.concat_eq_append, List.flatMap_append, List.flatMap_singleton] at hc
      split_ifs at hc
      · obtain rfl : d.toLower = c := by simpa using hc
        by_contra hblank
        rw [Bool.not_eq_false] at hblank
        rw [← Text.eq_of_toLower_eq (isLower_of_isBlank hblank) rfl, hd] at hblank
        cases hblank
      · obtain rfl : d = c := by simpa using hc
        exact hd

/-- The name in kebab case is plain as well. -/
theorem Plain.kebab {name value : String} (h : Plain (name, value)) :
    Plain (kebab name, value) := by
  obtain ⟨⟨hname, htrim, hcolon, hsemicolon⟩, hvalue⟩ := h
  refine ⟨⟨?_, ?_, ?_, ?_⟩, hvalue⟩
  · rw [ne_eq, Style.kebab, String.ofList_eq_empty_iff, kebabCase, List.flatMap_eq_nil_iff]
    intro hnil
    obtain ⟨c, rest, hcons⟩ := List.exists_cons_of_ne_nil fun heq =>
      hname (String.toList_eq_nil_iff.1 heq)
    have hfirst := hnil c (hcons ▸ List.mem_cons_self)
    split_ifs at hfirst
  · rw [trimmed, Style.kebab, String.toList_ofList, trim_kebabCase (trim_toList htrim)]
  · rw [Style.kebab, String.toList_ofList]
    exact fun hmem => hcolon (mem_of_mem_kebabCase (by decide) (by decide) hmem)
  · rw [Style.kebab, String.toList_ofList]
    exact fun hmem => hsemicolon (mem_of_mem_kebabCase (by decide) (by decide) hmem)

/-- A property as a text declares it: a name and a value that can be read back, the value a text. -/
def Declarable (entry : String × Json) : Prop :=
  ∃ value, entry.2 = .string value ∧ Plain (entry.1, value)

/-- **What a text declares can be declared.** -/
theorem declarable_of_mem_expand {text : String} {entry : String × Json}
    (h : entry ∈ expand text) : Declarable entry := by
  obtain ⟨piece, hpiece, hdeclaration⟩ := List.mem_filterMap.1 (Record.mem_of_mem_ofList h)
  exact plain_of_declaration? hdeclaration (Text.not_mem_of_mem_splitOn hpiece)

/-- **What a text declares is plain.** -/
theorem plain_of_mem_expand {text : String} {entry : String × Json} (h : entry ∈ expand text) :
    Plain (kebab entry.1, entry.2.toText) := by
  obtain ⟨value, hvalue, hplain⟩ := declarable_of_mem_expand h
  rw [hvalue]
  exact hplain.kebab

/-! ### Records and their texts -/

/-- No lower-case letter is an upper-case one. -/
theorem isUpper_toLower (c : Char) : c.toLower.isUpper = false := by
  unfold Char.toLower
  split
  · next hupper =>
    delta Char.isUpper
    simp only [ge_iff_le, UInt32.le_iff_toNat_le] at hupper
    simp [UInt32.le_iff_toNat_le, UInt32.toNat_add] at hupper ⊢
    omega
  · next hupper =>
    rw [Bool.eq_false_iff]
    delta Char.isUpper
    exact fun h => hupper (by simpa using h)

/-- A name in kebab case has no capitals. -/
theorem isUpper_of_mem_kebabCase {c : Char} {name : List Char} (h : c ∈ kebabCase name) :
    c.isUpper = false := by
  obtain ⟨d, -, hc⟩ := List.mem_flatMap.1 h
  split_ifs at hc with hupper
  · rcases List.mem_cons.1 hc with rfl | hc
    · rfl
    · rw [List.mem_singleton.1 hc]
      exact isUpper_toLower d
  · rw [List.mem_singleton.1 hc]
    exact Bool.not_eq_true _ ▸ hupper

/-- Kebab case leaves a name without capitals alone. -/
theorem kebab_eq_self {name : String} (h : ∀ c ∈ name.toList, c.isUpper = false) :
    kebab name = name := by
  have hchar : ∀ c ∈ name.toList, (if c.isUpper then ['-', c.toLower] else [c]) = [c] :=
    fun c hc => by rw [h c hc]; rfl
  rw [kebab, kebabCase, List.flatMap_congr hchar, List.flatMap_singleton', String.ofList_toList]

/-- What can be declared is read back from its text, with the names in kebab case. -/
theorem expand_collapse_of_declarable {style : Data} (h : ∀ entry ∈ style, Declarable entry) :
    expand (collapse style) = Record.ofList (style.map fun entry => (kebab entry.1, entry.2)) := by
  have hdeclared : declared style = style.map fun entry => (kebab entry.1, entry.2.toText) := by
    rw [declared, List.filter_eq_self.2 fun entry hmem => ?_]
    obtain ⟨value, hvalue, -⟩ := h entry hmem
    rw [hvalue]
    rfl
  have hplain : ∀ declaration ∈ declared style, Plain declaration := by
    rw [hdeclared]
    refine List.forall_mem_map.2 fun entry hmem => ?_
    obtain ⟨value, hvalue, hplain⟩ := h entry hmem
    rw [hvalue]
    exact hplain.kebab
  show Record.ofList (read (collapse style)) = _
  rw [collapse_eq_write, read_write hplain, hdeclared, List.map_map]
  refine congrArg _ (List.map_congr_left fun entry hmem => ?_)
  obtain ⟨value, hvalue, -⟩ := h entry hmem
  rw [Function.comp, hvalue]
  rfl

/-- **Expanding undoes collapsing for the records that a text can declare in kebab case, and for no
others.**  The keys of such a record ascend and have no ASCII capitals, and its entries can be
declared.  What a text expands to is such a record, but for capitals in its keys. -/
theorem expand_collapse (style : Data) (text : String) :
    (expand (collapse style) = style ↔ style.Ordered ∧
      ∀ entry ∈ style, Declarable entry ∧ ∀ c ∈ entry.1.toList, c.isUpper = false) ∧
    (expand text).Ordered ∧ ∀ entry ∈ expand text, Declarable entry := by
  refine ⟨⟨fun h => ?_, ?_⟩, Record.ordered_ofList _, fun entry => declarable_of_mem_expand⟩
  · have hdeclarable : ∀ entry ∈ style, Declarable entry := fun entry hmem =>
      declarable_of_mem_expand (h ▸ hmem)
    refine ⟨h ▸ Record.ordered_ofList _, fun entry hmem => ⟨hdeclarable entry hmem, ?_⟩⟩
    -- the keys have been read from a text that is written in kebab case
    rw [← h, expand_collapse_of_declarable hdeclarable] at hmem
    obtain ⟨other, -, rfl⟩ := List.mem_map.1 (Record.mem_of_mem_ofList hmem)
    rw [kebab, String.toList_ofList]
    exact fun c => isUpper_of_mem_kebabCase
  · rintro ⟨hordered, hentries⟩
    rw [expand_collapse_of_declarable fun entry hmem => (hentries entry hmem).1]
    have hkeys : style.map (fun entry => (kebab entry.1, entry.2)) = style := by
      refine (List.map_congr_left fun entry hmem => ?_).trans (List.map_id style)
      rw [kebab_eq_self (hentries entry hmem).2]
      rfl
    rw [hkeys, Record.ofList_eq_self hordered]

/-- Colons and blanks inside a value are kept. -/
example : expand (collapse [("background", .string "url(a:b)\u00a0\t x"), ("color", .string ":")]) =
    [("background", .string "url(a:b)\u00a0\t x"), ("color", .string ":")] := by
  rfl

end Style
end HtmlCompose
