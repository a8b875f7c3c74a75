/-
# The load cache over whole histories

A source stands over files that change while it is used.  Files are of any type here, with
the reader that they make; so an edit is any function on them, and that a read is a function
of the files as they are is all that is known of it.

| load | gives | leaves the cache |
| --- | --- | --- |
| without caching | what the files hold | as it was |
| with caching, directory loaded before | what the first such load gave | as it was |
| with caching, for the first time | what the files hold | with the component, if there is one |

"Before" is told by the answers of the history alone (`kept`): a directory counts as loaded
once a load with caching has given a component for it.  The cache is a mirror of that list
(`Mirrors`), and one step keeps it so, whether files are edited or a component is loaded
(`Mirrors.step`).
-/
import HtmlCompose.Files.Entry
import HtmlCompose.Files.Source
import Mathlib.Data.Finset.Card

namespace HtmlCompose

open Files

namespace DirectorySource

/-! ### Histories -/

/-- Something that happens to files and to the source over them. -/
inductive Event (σ : Type) where
  /-- files are written or removed -/
  | edit (change : σ → σ)
  /-- a component is loaded -/
  | load (options : LoadOptions) (uri : String)

/-- A source and the files under it. -/
structure Site (σ : Type) where
  files : σ
  source : DirectorySource

namespace Site

variable {σ : Type} (read : σ → Reader)

/-- What a load gives, and the source after it. -/
def load (s : Site σ) (options : LoadOptions) (uri : String) :
    Except LoadError Component × DirectorySource :=
  s.source.load (read s.files) options uri

/-- What the files hold for an address now. -/
def current (s : Site σ) (options : LoadOptions) (uri : String) : Except LoadError Component :=
  readComponent (read s.files) uri (s.source.directoryOf options uri)

/-- The site after an event. -/
def step (s : Site σ) : Event σ → Site σ
  | .edit change => { s with files := change s.files }
  | .load options uri => { s with source := (s.load read options uri).2 }

/-- The site after a history. -/
def after (s : Site σ) (history : List (Event σ)) : Site σ := history.foldl (step read) s

/-- The directory and the component of an event that is a load with caching and succeeds. -/
def kept? (s : Site σ) : Event σ → Option (String × Component)
  | .edit _ => none
  | .load options uri =>
    if options.caching then
      (s.load read options uri).1.toOption.map fun c => (s.source.directoryOf options uri, c)
    else none

/-- The directories and components of all successful loads with caching in a history, the first
one first. -/
def kept (s : Site σ) : List (Event σ) → List (String × Component)
  | [] => []
  | e :: history => (s.kept? read e).toList ++ kept (s.step read e) history

end Site

/-! ### One load -/

section Load

variable (s : DirectorySource) (files : Reader) (options : LoadOptions) (uri : String)

/-- A load with the cache left out. -/
theorem load_uncached (h : options.caching = false) :
    s.load files options uri = (readComponent files uri (s.directoryOf options uri), s) := by
  simp only [load, h, Bool.false_eq_true, if_false]
  rcases readComponent files uri (s.directoryOf options uri) with error | component <;> rfl

/-- A load that is served from the cache. -/
theorem load_hit {component : Component} (h : options.caching = true)
    (hcache : s.cache.get? (s.directoryOf options uri) = some component) :
    s.load files options uri = (.ok component, s) := by
  simp only [load, h, if_true, hcache]

/-- A load with caching that finds nothing in the cache. -/
theorem load_miss (h : options.caching = true)
    (hcache : s.cache.get? (s.directoryOf options uri) = none) :
    s.load files options uri =
      (readComponent files uri (s.directoryOf options uri),
        match readComponent files uri (s.directoryOf options uri) with
        | .error _ => s
        | .ok component =>
          { s with cache := (s.directoryOf options uri, component) :: s.cache }) := by
  simp only [load, h, if_true, hcache]
  rcases readComponent files uri (s.directoryOf options uri) with error | component
  · rfl
  · simp only [Cache.store, hcache, Option.isSome_none, Bool.false_eq_true, if_false]

/-- **A load that fails leaves the source as it was.** -/
theorem load_error {error : LoadError} (h : (s.load files options uri).1 = .error error) :
    (s.load files options uri).2 = s := by
  rcases hcaching : options.caching with _ | _
  · rw [s.load_uncached files options uri hcaching]
  rcases hcache : s.cache.get? (s.directoryOf options uri) with _ | component
  · rw [s.load_miss files options uri hcaching hcache] at h ⊢
    simp only at h
    simp only [h]
  · rw [s.load_hit files options uri hcaching hcache]

end Load

/-! ### The cache mirrors the history -/

/-- A cache has, for every directory, the first component of a list, and nothing twice. -/
structure Mirrors (cache : LoadCache) (loads : List (String × Component)) : Prop where
  first : ∀ directory, cache.get? directory = loads.lookup directory
  length : cache.length = (loads.map Prod.fst).toFinset.card

/-- An empty cache mirrors no loads. -/
theorem mirrors_nil : Mirrors [] [] := ⟨fun _ => rfl, rfl⟩

/-- A directory has no component just if none was loaded from it. -/
theorem lookup_eq_none_iff {loads : List (String × Component)} {directory : String} :
    loads.lookup directory = none ↔ directory ∉ loads.map Prod.fst := by
  rw [List.lookup_eq_none_iff, List.mem_map]
  constructor
  · rintro h ⟨entry, hentry, rfl⟩
    simpa using h entry hentry
  · intro h entry hentry
    simpa using fun heq => h ⟨entry, hentry, heq.symm⟩

/-- A later load counts for a directory only if there is no earlier one. -/
theorem lookup_concat (loads : List (String × Component)) (directory key : String)
    (component : Component) : (loads ++ [(key, component)]).lookup directory =
      (loads.lookup directory).or (if directory = key then some component else none) := by
  rw [List.lookup_append]
  congr 1
  rw [List.lookup_cons, List.lookup_nil]
  split <;> simp_all

namespace Mirrors

variable {cache : LoadCache} {loads : List (String × Component)} {directory : String}
  {component : Component}

/-- A component is kept for a directory that has none yet. -/
theorem keep (h : Mirrors cache loads) (hnew : cache.get? directory = none) :
    Mirrors ((directory, component) :: cache) (loads ++ [(directory, component)]) where
  first key := by
    rw [lookup_concat, ← h.first, Cache.get?, List.lookup_cons]
    by_cases hkey : key = directory
    · subst hkey
      simp [hnew]
    · rw [if_neg hkey, Option.or_none, beq_false_of_ne hkey]
      rfl
  length := by
    have hout : directory ∉ (loads.map Prod.fst).toFinset := by
      rw [List.mem_toFinset, ← lookup_eq_none_iff, ← h.first, hnew]
    rw [List.length_cons, h.length, List.map_append, List.toFinset_append, List.map_singleton,
      List.toFinset_cons, List.toFinset_nil, insert_empty_eq, Finset.union_singleton,
      Finset.card_insert_of_notMem hout]

/-- What is there already is given once more. -/
theorem again (h : Mirrors cache loads) (hold : cache.get? directory = some component) :
    Mirrors cache (loads ++ [(directory, component)]) where
  first key := by
    rw [lookup_concat, ← h.first]
    by_cases hkey : key = directory
    · rw [hkey, hold, Option.some_or]
    · rw [if_neg hkey, Option.or_none]
  length := by
    have hmem : directory ∈ (loads.map Prod.fst).toFinset := by
      rw [List.mem_toFinset]
      refine Classical.not_not.1 fun hout => ?_
      rw [← lookup_eq_none_iff, ← h.first, hold] at hout
      cases hout
    rw [h.length, List.map_append, List.toFinset_append, List.map_singleton, List.toFinset_cons,
      List.toFinset_nil, insert_empty_eq, Finset.union_singleton, Finset.insert_eq_of_mem hmem]

variable {σ : Type} {read : σ → Reader} {s : Site σ}

/-- **One event keeps the cache a mirror.** -/
theorem step (h : Mirrors s.source.cache loads) (e : Event σ) :
    Mirrors (s.step read e).source.cache (loads ++ (s.kept? read e).toList) := by
  cases e with
  | edit change => simpa [Site.step, Site.kept?] using h
  | load options uri =>
    simp only [Site.step, Site.kept?, Site.load]
    rcases hcaching : options.caching with _ | _
    · simpa [load_uncached _ _ _ _ hcaching] using h
    rcases hcache : s.source.cache.get? (s.source.directoryOf options uri) with _ | component
    · rw [load_miss _ _ _ _ hcaching hcache]
      rcases readComponent (read s.files) uri _ with error | component
      · simpa [Except.toOption] using h
      · exact h.keep hcache
    · rw [load_hit _ _ _ _ hcaching hcache]
      exact h.again hcache

/-- A whole history keeps the cache a mirror. -/
theorem after (h : Mirrors s.source.cache loads) (history : List (Event σ)) :
    Mirrors (s.after read history).source.cache (loads ++ s.kept read history) := by
  induction history generalizing s loads with
  | nil => simpa [Site.after, Site.kept] using h
  | cons e history ih =>
    rw [Site.kept, ← List.append_assoc]
    exact ih (h.step e)

end Mirrors

/-! ### What a load gives after a history -/

variable {σ : Type}

/-- **The load cache is sound over whole histories.**  Let files be edited and components be loaded
in any order, from a source without cached components on, and then load a component.

* With caching, it is the component that the first successful load with caching has given for the
  same directory, if there was one; otherwise what the files hold.
* Without caching, it is what the files hold, whatever the cache holds, and the source stays.
* A load that fails leaves the source as it was.
* The cache has as many entries as directories have been loaded with caching and success. -/
theorem load_after_history (read : σ → Reader) (base : String) (files : σ)
    (history : List (Event σ)) (options : LoadOptions) (uri : String) :
    let start : Site σ := ⟨files, ⟨base, []⟩⟩
    let s := start.after read history
    let loads := start.kept read history
    (options.caching = true → (s.load read options uri).1 =
        match loads.lookup (s.source.directoryOf options uri) with
        | some component => .ok component
        | none => s.current read options uri) ∧
      (options.caching = false →
        (∀ cache, (Site.load read { s with source := ⟨s.source.base, cache⟩ } options uri).1 =
          s.current read options uri) ∧
        (s.load read options uri).2 = s.source) ∧
      (∀ error, (s.load read options uri).1 = .error error →
        (s.load read options uri).2 = s.source) ∧
      s.source.cache.length = (loads.map Prod.fst).toFinset.card := by
  intro start s loads
  have hmirrors : Mirrors s.source.cache loads := by
    have h : Mirrors s.source.cache ([] ++ loads) := Mirrors.after (s := start) mirrors_nil history
    rwa [List.nil_append] at h
  refine ⟨fun hcaching => ?_, fun hcaching => ⟨fun cache => ?_, ?_⟩, fun error herror => ?_,
    hmirrors.length⟩
  · rw [← hmirrors.first]
    rcases hcache : s.source.cache.get? (s.source.directoryOf options uri) with _ | component
    · rw [Site.load, load_miss _ _ _ _ hcaching hcache]
      rfl
    · rw [Site.load, load_hit _ _ _ _ hcaching hcache]
  · rw [Site.load, load_uncached _ _ _ _ hcaching]
    rfl
  · rw [Site.load, load_uncached _ _ _ _ hcaching]
  · exact load_error _ _ _ _ herror

/-- A component is loaded, written over and loaded again: with caching, under any spelling that
leads to the same directory, it is what it was, although the files hold something else by now. -/
theorem load_after_history_edited :
    let page (text : String) : Entry → Entry :=
      Entry.put (.file text.toUTF8.toList) ["b", "c", "template.html"]
    let history : List (Event Entry) := [.load {} "c", .load {} "d", .edit (page "new"),
      .load { baseDirectory := some "/b" } "/c", .edit (Entry.remove ["b", "d"])]
    let read (files : Entry) : Reader := files.read []
    let s := (⟨page "old" .empty, ⟨"/b", []⟩⟩ : Site Entry).after read history
    (s.load read {} "//c").1.toOption.map (·.template) = some "old" ∧
      (s.current read {} "//c").toOption.map (·.template) = some "new" ∧
      s.source.cache.length = 1 := by
  intro page history read s
  obtain ⟨hcached, -, -, hlength⟩ :=
    load_after_history read "/b" (page "old" .empty) history {} "//c"
  obtain ⟨hkept, hfirst, hcurrent⟩ :
      let loads := (⟨page "old" .empty, ⟨"/b", []⟩⟩ : Site Entry).kept read history
      loads.map Prod.fst = ["/b/c", "/b/c"] ∧
        (loads.lookup (s.source.directoryOf {} "//c")).map (·.template) = some "old" ∧
        (s.current read {} "//c").toOption.map (·.template) = some "new" := by decide +kernel
  obtain ⟨component, hlookup, htemplate⟩ := Option.map_eq_some_iff.1 hfirst
  refine ⟨?_, hcurrent, ?_⟩
  · rw [hcached rfl, hlookup]
    exact congrArg some htemplate
  · rw [hlength, hkept]
    rfl

end DirectorySource
end HtmlCompose
