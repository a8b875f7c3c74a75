/-
# Which addresses stay below the base directory

The directory of an address is the base with the address behind it, and the address is
followed as it is written: `..` leads up, out of the base too.  Where a path leads is told
by `resolve` from its text alone, and a tree of directories without links is read exactly
there (`locate_eq_resolve`).

What an address does is told by its `course`: up a number of directories, then down along
names.  It depends on the address alone, and the directory is the base with that course
taken from it (`resolve_directoryOf`):

| base | address | course | directory |
| --- | --- | --- | --- |
| `/srv/site` | `/cards/../wide` | up 0, down `wide` | `/srv/site/wide` |
| `/srv/site` | `../outside` | up 1, down `outside` | `/srv/outside` |
| `/srv/site` | `../site/card` | up 1, down `site/card` | `/srv/site/card` |

So an address that does not climb above where it starts stays below every base, and one that
does leaves the base, unless it comes back by the very names that it has left
(`load_confined`, `load_outside`).
-/
import HtmlCompose.Files.Entry
import HtmlCompose.Files.Source
import Mathlib.Data.List.Basic

namespace HtmlCompose
namespace Files

/-! ### Where a path leads -/

/-- The place that a segment of a path leads to from a place. -/
def enter (place : List String) (segment : String) : List String :=
  if segment.isEmpty || segment == "." then place
  else if segment == ".." then place.dropLast
  else place ++ [segment]

/-- The place that a path leads to from a place, by the text of the path alone. -/
def resolve (here : List String) (path : String) : List String :=
  (segments '/' path).foldl enter (if isAbsolute path then [] else here)

namespace Entry

/-- A path that can be followed leads along its segments. -/
theorem follow_eq_foldl {top : Entry} {place found : List String} {path : List String}
    (h : top.follow place path = .ok found) : found = path.foldl enter place := by
  induction path generalizing place with
  | nil => exact (Except.ok.inj h).symm
  | cons segment rest ih =>
    unfold follow at h
    split at h
    · cases h
    · cases h
    · exact ih h

/-- **A path is followed to where its text leads.** -/
theorem locate_eq_resolve {top : Entry} {here found : List String} {path : String}
    (h : top.locate here path = .ok found) : found = resolve here path := by
  unfold locate at h
  split at h
  · cases h
  · split at h
    · cases h
    · split at h
      · cases h
      · exact follow_eq_foldl h

end Entry

/-! ### Courses -/

/-- How a path leads away from where it starts: up a number of directories, then down along
names. -/
structure Course where
  up : Nat := 0
  down : List String := []
deriving DecidableEq, Repr

namespace Course

/-- The course with a segment behind it. -/
def enter (c : Course) (segment : String) : Course :=
  if segment.isEmpty || segment == "." then c
  else if segment == ".." then
    match c.down with
    | [] => { c with up := c.up + 1 }
    | _ => { c with down := c.down.dropLast }
  else { c with down := c.down ++ [segment] }

/-- The place that a course leads to from a place; above the top there is nothing. -/
def lead (c : Course) (place : List String) : List String :=
  place.take (place.length - c.up) ++ c.down

/-- The course with a segment behind it leads where the segment leads from its end. -/
theorem lead_enter (c : Course) (segment : String) (place : List String) :
    (c.enter segment).lead place = Files.enter (c.lead place) segment := by
  obtain ⟨up, down⟩ := c
  unfold enter Files.enter lead
  split
  · rfl
  · split
    · rcases down with _ | ⟨name, names⟩
      · have hup : place.length - (up + 1) = place.length - up - 1 := by omega
        simp only [List.append_nil, hup]
        rw [List.dropLast_eq_take, List.length_take, List.take_take]
        congr 1
        omega
      · exact (List.dropLast_append_of_ne_nil (List.cons_ne_nil _ _)).symm
    · exact (List.append_assoc _ _ _).symm

/-- The course of a path leads where its segments lead, one after another. -/
theorem lead_foldl (path : List String) (c : Course) (place : List String) :
    (path.foldl enter c).lead place = path.foldl Files.enter (c.lead place) := by
  induction path generalizing c with
  | nil => rfl
  | cons segment path ih => rw [List.foldl_cons, ih, lead_enter, List.foldl_cons]

/-- **A course ends below a place that it starts from** if and only if it comes back by the names
that it has left. -/
theorem isPrefix_lead_iff (c : Course) (place : List String) :
    place <+: c.lead place ↔ place.drop (place.length - c.up) <+: c.down := by
  have h : place.take (place.length - c.up) ++ place.drop (place.length - c.up) <+: c.lead place ↔
      place.drop (place.length - c.up) <+: c.down := List.prefix_append_right_inj _
  rwa [List.take_append_drop] at h

end Course

/-- The course of a path that is taken as a relative one. -/
def course (path : String) : Course := (segments '/' path).foldl Course.enter {}

/-! ### Segments of joined paths -/

/-- A slash cuts a path into the segments before it and those behind it. -/
theorem segments_slash (before behind : List Char) :
    segments '/' (String.ofList (before ++ '/' :: behind)) =
      segments '/' (String.ofList before) ++ segments '/' (String.ofList behind) := by
  simp only [segments, String.toList_ofList, List.splitOn_eq_splitOnP]
  rw [List.splitOnP_append_cons (p := (· == '/')) before behind rfl, List.map_append]

/-- The empty path is one blank segment. -/
theorem segments_empty : segments '/' "" = [""] := by
  rw [segments, String.toList_empty, List.splitOn_nil]
  rfl

/-- Slashes at the start of a relative path change nothing. -/
theorem course_dropWhile (path : String) :
    course (String.ofList (path.toList.dropWhile (· == '/'))) = course path := by
  have hlist (l : List Char) :
      course (String.ofList (l.dropWhile (· == '/'))) = course (String.ofList l) := by
    induction l with
    | nil => rfl
    | cons c l ih =>
      by_cases hc : c = '/'
      · subst hc
        have hsplit := segments_slash [] l
        rw [List.nil_append] at hsplit
        rw [List.dropWhile_cons_of_pos (by decide), ih, course, course, hsplit]
        rfl
      · rw [List.dropWhile_cons_of_neg (by simpa using hc)]
  simpa using hlist path.toList

/-- A base with something behind it is absolute just if the base is. -/
theorem isAbsolute_append {base : String} (h : base ≠ "") (path : String) :
    isAbsolute (base ++ path) = isAbsolute base := by
  have hne : base.toList ≠ [] := fun hnil => h (String.toList_eq_nil_iff.1 hnil)
  obtain ⟨c, s, hs⟩ := List.exists_cons_of_ne_nil hne
  rw [isAbsolute, isAbsolute, String.toList_append, hs]
  rfl

/-- **A relative path behind a base is taken from where the base leads.** -/
theorem resolve_join {path : String} (hpath : isAbsolute path = false) (here : List String)
    (base : String) : resolve here (join base path) = (course path).lead (resolve here base) := by
  have hstart (place : List String) : ({} : Course).lead place = place := by simp [Course.lead]
  rw [course, Course.lead_foldl, hstart, join, hpath, if_neg Bool.false_ne_true]
  by_cases hempty : base = ""
  · subst hempty
    have hjoined : (if "".isEmpty || "".toList.getLast? == some '/' then "" ++ path
        else "" ++ "/" ++ path) = path := String.empty_append
    rw [hjoined, resolve, resolve, hpath, segments_empty]
    rfl
  have hbase : base.isEmpty = false := by simpa [String.isEmpty_iff] using hempty
  rw [hbase, Bool.false_or]
  split
  · rename_i hlast
    obtain ⟨before, hbefore⟩ := List.getLast?_eq_some_iff.1 (beq_iff_eq.1 hlast)
    obtain rfl : base = String.ofList (before ++ ['/']) := by
      rw [← hbefore, String.ofList_toList]
    have hjoined : String.ofList (before ++ ['/']) ++ path =
        String.ofList (before ++ '/' :: path.toList) := by
      rw [← String.toList_inj]
      simp
    rw [resolve, resolve, isAbsolute_append hempty, hjoined, segments_slash, segments_slash,
      String.ofList_toList, List.foldl_append, List.foldl_append]
    rfl
  · have hjoined : base ++ "/" ++ path = String.ofList (base.toList ++ '/' :: path.toList) := by
      rw [← String.toList_inj]
      simp
    have habsolute : isAbsolute (base ++ "/" ++ path) = isAbsolute base := by
      rw [String.append_assoc, isAbsolute_append hempty]
    rw [resolve, resolve, habsolute, hjoined, segments_slash, String.ofList_toList,
      String.ofList_toList, List.foldl_append]

end Files

open Files

namespace DirectorySource

variable (s : DirectorySource) (options : LoadOptions) (uri : String)

/-- The base directory that a load takes. -/
def baseOf (s : DirectorySource) (options : LoadOptions) : String :=
  options.baseDirectory.getD s.base

/-- Without its leading slashes a path is relative. -/
theorem isAbsolute_dropWhile (path : List Char) :
    isAbsolute (String.ofList (path.dropWhile (· == '/'))) = false := by
  have hfirst := List.head?_dropWhile_not (· == '/') path
  rw [isAbsolute, String.toList_ofList]
  rcases hdrop : path.dropWhile (· == '/') with _ | ⟨c, rest⟩
  · rfl
  · rw [hdrop] at hfirst
    simpa using hfirst

/-- **The directory of an address** is where its course leads from the base. -/
theorem resolve_directoryOf (here : List String) :
    resolve here (s.directoryOf options uri) =
      (course uri).lead (resolve here (s.baseOf options)) := by
  rw [directoryOf, resolve_join (isAbsolute_dropWhile _), course_dropWhile]
  rfl

/-! ### What a load reads -/

/-- A file of a component stands in the directory of the component. -/
theorem resolve_filesOf {directory path : String} (hpath : path ∈ filesOf directory)
    (here : List String) : ∃ name, resolve here path = resolve here directory ++ [name] := by
  obtain ⟨name, hname, rfl⟩ := List.mem_map.1 hpath
  refine ⟨name, ?_⟩
  have hcourse : isAbsolute name = false ∧ course name = ⟨0, [name]⟩ := by
    simp only [List.mem_cons, List.not_mem_nil, or_false] at hname
    rcases hname with rfl | rfl | rfl | rfl <;> decide +kernel
  rw [resolve_join hcourse.1, hcourse.2, Course.lead, Nat.sub_zero, List.take_length]

/-- Reading a component depends on its own files only. -/
theorem readComponent_congr {files files' : Reader} {directory : String}
    (h : ∀ path ∈ filesOf directory, files path = files' path) :
    readComponent files uri directory = readComponent files' uri directory := by
  have hread : ∀ path ∈ filesOf directory, readFile files path = readFile files' path :=
    fun path hpath => by rw [readFile, readFile, Reader.optional, Reader.optional, h path hpath]
  simp only [filesOf, List.map_cons, List.map_nil, List.forall_mem_cons] at hread
  obtain ⟨htemplate, htoml, hjson, hscript, -⟩ := hread
  rw [readComponent, readComponent, htemplate, hscript, readSettings, readSettings, htoml, hjson]

/-- A load depends on nothing but the files of the directory. -/
theorem load_congr {files files' : Reader}
    (h : ∀ path ∈ filesOf (s.directoryOf options uri), files path = files' path) :
    s.load files options uri = s.load files' options uri := by
  rw [load, load, readComponent_congr uri h]

/-- **Which addresses stay below the base.**  Seen from any place, and whatever slashes, blank
segments, `.` and `..` an address holds:

* its directory is the base or lies below it if and only if the address comes back by the names
  that it has left above its start, which it has if there are none, and
* then every file that a load reads lies below the base, in any tree of directories, and the load
  depends on no other file. -/
theorem load_confined (here : List String) :
    let base := resolve here (s.baseOf options)
    let directory := resolve here (s.directoryOf options uri)
    (base <+: directory ↔ base.drop (base.length - (course uri).up) <+: (course uri).down) ∧
    ((course uri).up = 0 → base <+: directory) ∧
    (base <+: directory →
      (∀ (top : Entry) (place : List String), ∀ path ∈ filesOf (s.directoryOf options uri),
        top.locate here path = .ok place → base <+: place ∧ place ≠ base) ∧
      ∀ files files' : Reader,
        (∀ path, base <+: resolve here path → files path = files' path) →
        s.load files options uri = s.load files' options uri) := by
  intro base directory
  have hdirectory : base <+: directory ↔
      base.drop (base.length - (course uri).up) <+: (course uri).down := by
    rw [show directory = (course uri).lead base from resolve_directoryOf s options uri here]
    exact (course uri).isPrefix_lead_iff base
  refine ⟨hdirectory, fun hup => ?_, fun hbelow => ⟨fun top place path hpath hplace => ?_,
    fun files files' hfiles => s.load_congr options uri fun path hpath => ?_⟩⟩
  · rw [hdirectory, hup, Nat.sub_zero, List.drop_length]
    exact List.nil_prefix
  · obtain ⟨name, hname⟩ := resolve_filesOf hpath here
    obtain rfl := Entry.locate_eq_resolve hplace
    rw [hname]
    refine ⟨hbelow.trans (List.prefix_append _ _), fun heq => ?_⟩
    have hle : base.length ≤ (resolve here (s.directoryOf options uri)).length :=
      hbelow.length_le
    have hlength := congrArg List.length heq
    rw [List.length_append, List.length_singleton] at hlength
    exact absurd hlength (by omega)
  · obtain ⟨name, hname⟩ := resolve_filesOf hpath here
    exact hfiles path (hname ▸ hbelow.trans (List.prefix_append _ _))

/-- An address with slashes at its start and a detour inside does not climb out, so the template
below the base is all that a load of it needs. -/
theorem load_confined_detour :
    let s : DirectorySource := ⟨"site/", []⟩
    let files (rest : Except Failure String) : Reader := fun path =>
      if ["home", "site"] <+: resolve ["home"] path then
        if resolve ["home"] path = ["home", "site", "wide", "template.html"] then .ok "<p>x</p>"
        else .error .missing
      else rest
    ["home", "site"] <+: resolve ["home"] (s.directoryOf {} "//cards/..//wide/.") ∧
      (s.load (files (.ok "other")) {} "//cards/..//wide/.").1.toOption.map (·.template) =
        some "<p>x</p>" := by
  intro s files
  have hbase : resolve ["home"] (s.baseOf {}) = ["home", "site"] := by decide +kernel
  obtain ⟨-, hstays, hreads⟩ := load_confined s {} "//cards/..//wide/." ["home"]
  rw [hbase] at hstays hreads
  have hbelow := hstays (by decide +kernel)
  have hload := (hreads hbelow).2 (files (.ok "other")) (files (.error .missing)) fun path hpath => by
    simp only [files, if_pos hpath]
  refine ⟨hbelow, ?_⟩
  rw [hload]
  decide +kernel

/-- **An address that climbs leaves the base.**  A component beside the base directory is loaded
from there. -/
theorem load_outside :
    let s : DirectorySource := ⟨"/srv/site", []⟩
    let top : Entry := Entry.put (.file "hidden".toUTF8.toList) ["srv", "outside", "template.html"]
      (Entry.put (.file "shown".toUTF8.toList) ["srv", "site", "card", "template.html"] .empty)
    resolve [] (s.directoryOf {} "../outside") = ["srv", "outside"] ∧
      ¬resolve [] (s.baseOf {}) <+: resolve [] (s.directoryOf {} "../outside") ∧
      (s.load (top.read []) {} "../outside").1.toOption.map (·.template) = some "hidden" := by
  decide +kernel

end DirectorySource
end HtmlCompose
