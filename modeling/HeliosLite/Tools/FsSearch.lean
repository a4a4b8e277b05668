import HeliosLite.Orchestration.ToolCalls
import HeliosLite.Theory.Splice
import HeliosLite.Theory.Traverse
import HeliosLite.Truncation.Search

/-!
# Searching with context

`grep-searcher` calls a sink for each line that matches and for each line of context.
`ContextSink` keeps the last match until the next one arrives, and collects the context before and
after a match in two buffers.

## Main definitions

* `SinkEvent`, `ContextSink.step` — the calls, and what the sink does
* `searchContent` — the matches in some files
* `MatchGroup` — a match with the context that is reported around it

## Main results

* `intoMatches_groups` — which match the context goes to
* `searchContent_eq_iff` — when each match has its own context
-/

namespace HeliosLite

open Truncation Theory

inductive SinkContextKind where
  | before
  | after
  | other
deriving DecidableEq

/-- A call of the sink, with the bytes of the line. -/
inductive SinkEvent where
  | matched (lineNumber : Option ℕ) (bytes : List UInt8)
  | context (kind : SinkContextKind) (bytes : List UInt8)
deriving DecidableEq

/-- `str::trim_end`. -/
def trimEnd (s : String) : String := String.ofList (s.toList.rdropWhile isWhitespace)

/-- The readers of bytes: `to_str_lossy`, and `str::from_utf8`, on which the `UTF8` sink fails. -/
class Utf8Readers where
  toStrLossy : List UInt8 → String
  fromUtf8 : List UInt8 → Option String

section Sink

variable [Utf8Readers]

/-- The line as it is shown. -/
def shownLine (bytes : List UInt8) : String := trimEnd (Utf8Readers.toStrLossy bytes)

structure ContextSink where
  path : String
  showLineNumbers : Bool
  found : List Match
  beforeContext : List String
  currentMatch : Option (ℕ × String)
  currentAfterContext : List String
deriving DecidableEq

namespace ContextSink

def new (path : String) (showLineNumbers : Bool) : ContextSink :=
  { path
    showLineNumbers
    found := []
    beforeContext := []
    currentMatch := none
    currentAfterContext := [] }

/-- The entry of a match with context. -/
def contextMatch (path : String) (showLineNumbers : Bool) (matched : ℕ × String)
    (beforeContext afterContext : List String) : Match :=
  { path
    result := some (.contextMatch (if showLineNumbers then some matched.1 else none) matched.2
      beforeContext afterContext) }

/-- `into_matches`: the last match is put out. -/
def intoMatches (s : ContextSink) (hasContext : Bool) : List Match :=
  match s.currentMatch with
  | some matched =>
    if hasContext then
      s.found ++ [contextMatch s.path s.showLineNumbers matched s.beforeContext
        s.currentAfterContext]
    else
      s.found ++
        [{ path := s.path
           result := some (.found (if s.showLineNumbers then some matched.1 else none)
             matched.2) }]
  | none => s.found

/-- `matched` and `context`. -/
def step (s : ContextSink) : SinkEvent → ContextSink
  | .matched lineNumber bytes =>
    let s := match s.currentMatch with
      | some matched =>
        { s with
          found := s.found ++ [contextMatch s.path s.showLineNumbers matched s.beforeContext
            s.currentAfterContext]
          beforeContext := []
          currentAfterContext := [] }
      | none => s
    { s with currentMatch := some (lineNumber.getD 0, shownLine bytes) }
  | .context .before bytes => { s with beforeContext := s.beforeContext ++ [shownLine bytes] }
  | .context .after bytes =>
    { s with currentAfterContext := s.currentAfterContext ++ [shownLine bytes] }
  | .context .other _ => s

end ContextSink

/-! ### Files -/

structure FsSearch where
  showLineNumbers : Option Bool
  context : Option ℕ
  beforeContext : Option ℕ
  afterContext : Option ℕ

namespace FsSearch

variable (params : FsSearch)

def hasContext : Bool :=
  params.context.isSome || params.beforeContext.isSome || params.afterContext.isSome

/-- The numbers of lines before and after a match that the searcher is set to. -/
def searcherContext : ℕ × ℕ :=
  match params.context with
  | some context => (context, context)
  | none => (params.beforeContext.getD 0, params.afterContext.getD 0)

end FsSearch

structure SearchedFile where
  path : String
  isBinary : Bool
  content : List UInt8

/-- The entry of a line for the sink without context. -/
def foundMatch (path : String) (showLineNumbers : Bool) : SinkEvent → Option (Option Match)
  | .matched lineNumber bytes => some ((Utf8Readers.fromUtf8 bytes).map fun line =>
      { path
        result := some (.found (if showLineNumbers then some (lineNumber.getD 0) else none)
          (trimEnd line)) })
  | .context _ _ => none

/-- The calls of the sink for a content, with so many lines of context before and after. -/
abbrev GrepSearcher := ℕ × ℕ → List UInt8 → List SinkEvent

variable (searchSlice : GrepSearcher)

/-- The matches of a file, unless the `UTF8` sink fails on a line. -/
def searchFile (params : FsSearch) (file : SearchedFile) : Option (List Match) :=
  let showLineNumbers := params.showLineNumbers.getD true
  let events := searchSlice params.searcherContext file.content
  if params.hasContext then
    some ((events.foldl ContextSink.step (.new file.path showLineNumbers)).intoMatches true)
  else
    (events.filterMap (foundMatch file.path showLineNumbers)).mapM id

def searchContent (params : FsSearch) (files : List SearchedFile) : Option (List Match) :=
  ((files.filter fun file => !file.isBinary).mapM (searchFile searchSlice params)).map
    List.flatten

end Sink

/-! ### Matches with their context -/

/-- A match with the lines of context that are reported before it and after it. -/
structure MatchGroup where
  before : List (List UInt8)
  lineNumber : ℕ
  line : List UInt8
  after : List (List UInt8)
deriving DecidableEq

namespace MatchGroup

/-- The calls of the sink in the order of the lines. -/
def events (g : MatchGroup) : List SinkEvent :=
  g.before.map (.context .before) ++ .matched (some g.lineNumber) g.line ::
    g.after.map (.context .after)

variable [Utf8Readers]

def matched (g : MatchGroup) : ℕ × String := (g.lineNumber, shownLine g.line)

/-- The entry that the match should have. -/
def entry (path : String) (showLineNumbers : Bool) (g : MatchGroup) : Match :=
  ContextSink.contextMatch path showLineNumbers g.matched (g.before.map shownLine)
    (g.after.map shownLine)

end MatchGroup

namespace ContextSink

variable [Utf8Readers] {path : String} {showLineNumbers : Bool}

/-- A match that is kept goes out with the context before it and with that before the next one. -/
def attributed (path : String) (showLineNumbers : Bool) (beforeContext : List String)
    (matched : ℕ × String) (afterContext : List String) : List MatchGroup → List Match
  | [] => [contextMatch path showLineNumbers matched beforeContext afterContext]
  | g :: groups =>
    contextMatch path showLineNumbers matched (beforeContext ++ g.before.map shownLine)
        afterContext ::
      attributed path showLineNumbers [] g.matched (g.after.map shownLine) groups

theorem foldl_before (lines : List (List UInt8)) (s : ContextSink) :
    (lines.map (.context .before)).foldl step s =
      { s with beforeContext := s.beforeContext ++ lines.map shownLine } := by
  induction lines generalizing s with
  | nil => simp
  | cons line lines ih =>
    rw [List.map_cons, List.foldl_cons, ih, List.map_cons]
    simp [step]

theorem foldl_after (lines : List (List UInt8)) (s : ContextSink) :
    (lines.map (.context .after)).foldl step s =
      { s with currentAfterContext := s.currentAfterContext ++ lines.map shownLine } := by
  induction lines generalizing s with
  | nil => simp
  | cons line lines ih =>
    rw [List.map_cons, List.foldl_cons, ih, List.map_cons]
    simp [step]

theorem intoMatches_pending (groups : List MatchGroup) {s : ContextSink} {matched : ℕ × String}
    (h : s.currentMatch = some matched) :
    ((groups.flatMap MatchGroup.events).foldl step s).intoMatches true =
      s.found ++ attributed s.path s.showLineNumbers s.beforeContext matched
        s.currentAfterContext groups := by
  induction groups generalizing s matched with
  | nil =>
    rw [List.flatMap_nil, List.foldl_nil, intoMatches, h]
    rfl
  | cons g groups ih =>
    rw [List.flatMap_cons, List.foldl_append, MatchGroup.events, List.foldl_append,
      List.foldl_cons, foldl_before, foldl_after, ih rfl]
    simp [step, h, attributed, MatchGroup.matched]

/-- The context before a match goes to the match before it, if there is one. -/
theorem intoMatches_groups (g : MatchGroup) (groups : List MatchGroup) :
    (((g :: groups).flatMap MatchGroup.events).foldl step (new path showLineNumbers)).intoMatches
        true =
      attributed path showLineNumbers (g.before.map shownLine) g.matched (g.after.map shownLine)
        groups := by
  rw [List.flatMap_cons, List.foldl_append, MatchGroup.events, List.foldl_append,
    List.foldl_cons, foldl_before, foldl_after, intoMatches_pending groups rfl]
  rfl

theorem length_attributed (beforeContext : List String) (matched : ℕ × String)
    (afterContext : List String) (groups : List MatchGroup) :
    (attributed path showLineNumbers beforeContext matched afterContext groups).length =
      groups.length + 1 := by
  induction groups generalizing beforeContext matched afterContext with
  | nil => rfl
  | cons g groups ih => rw [attributed, List.length_cons, ih, List.length_cons]

/-- A match keeps its context if no match behind it has context before it. -/
theorem attributed_eq_iff {beforeContext : List String} {matched : ℕ × String}
    {afterContext : List String} {groups : List MatchGroup} :
    attributed path showLineNumbers beforeContext matched afterContext groups =
        contextMatch path showLineNumbers matched beforeContext afterContext ::
          groups.map (MatchGroup.entry path showLineNumbers) ↔
      ∀ g ∈ groups, g.before = [] := by
  induction groups generalizing beforeContext matched afterContext with
  | nil => exact iff_of_true rfl fun _ hg => absurd hg List.not_mem_nil
  | cons g groups ih =>
    rw [attributed, List.map_cons, List.cons.injEq, List.forall_mem_cons]
    constructor
    · rintro ⟨hfirst, hrest⟩
      have hbefore : g.before = [] := by
        have hcontext := congrArg Match.result hfirst
        simpa [contextMatch] using hcontext
      refine ⟨hbefore, ih.mp (hrest.trans ?_)⟩
      rw [MatchGroup.entry, hbefore, List.map_nil]
    · rintro ⟨hbefore, hrest⟩
      refine ⟨by rw [hbefore, List.map_nil, List.append_nil], (ih.mpr hrest).trans ?_⟩
      rw [MatchGroup.entry, hbefore, List.map_nil]

end ContextSink

/-! ### Results -/

/-- No match but the first one of a file has context before it. -/
def LeadsOnly (groups : List MatchGroup) : Prop := ∀ g ∈ groups.tail, g.before = []

section Results

variable [Utf8Readers] {searchSlice : GrepSearcher} {params : FsSearch}

theorem length_intoMatches (path : String) (showLineNumbers : Bool) (groups : List MatchGroup) :
    (((groups.flatMap MatchGroup.events).foldl ContextSink.step
      (.new path showLineNumbers)).intoMatches true).length = groups.length := by
  cases groups with
  | nil => rfl
  | cons g groups =>
    rw [ContextSink.intoMatches_groups, ContextSink.length_attributed, List.length_cons]

theorem intoMatches_eq_iff (path : String) (showLineNumbers : Bool) (groups : List MatchGroup) :
    ((groups.flatMap MatchGroup.events).foldl ContextSink.step
        (.new path showLineNumbers)).intoMatches true =
      groups.map (MatchGroup.entry path showLineNumbers) ↔ LeadsOnly groups := by
  cases groups with
  | nil => exact iff_of_true rfl fun _ hg => absurd hg List.not_mem_nil
  | cons g groups =>
    rw [ContextSink.intoMatches_groups, List.map_cons]
    exact ContextSink.attributed_eq_iff

/-- A search with context gives each match its own context exactly if no match but the first one of
each file has context before it. -/
theorem searchContent_eq_iff (hcontext : params.hasContext = true) {files : List SearchedFile}
    {groups : SearchedFile → List MatchGroup}
    (hevents : ∀ file ∈ files, file.isBinary = false →
      searchSlice params.searcherContext file.content = (groups file).flatMap MatchGroup.events) :
    searchContent searchSlice params files =
        some ((files.filter fun file => !file.isBinary).flatMap fun file =>
          (groups file).map (MatchGroup.entry file.path (params.showLineNumbers.getD true))) ↔
      ∀ file ∈ files, file.isBinary = false → LeadsOnly (groups file) := by
  have hfiles : ∀ file ∈ files.filter fun file => !file.isBinary,
      file ∈ files ∧ file.isBinary = false := by
    intro file hfile
    obtain ⟨hmem, hbinary⟩ := List.mem_filter.mp hfile
    exact ⟨hmem, (Bool.not_eq_true' _).mp hbinary⟩
  have hsearch : (files.filter fun file => !file.isBinary).mapM (searchFile searchSlice params) =
      some ((files.filter fun file => !file.isBinary).map fun file =>
        (((groups file).flatMap MatchGroup.events).foldl ContextSink.step
          (.new file.path (params.showLineNumbers.getD true))).intoMatches true) := by
    rw [mapM_eq_some_map_iff]
    intro file hfile
    obtain ⟨hmem, hbinary⟩ := hfiles file hfile
    simp only [searchFile, if_pos hcontext, hevents file hmem hbinary]
  rw [searchContent, hsearch, Option.map_some, Option.some.injEq, ← List.flatMap_def,
    flatMap_eq_iff_of_length_le]
  · constructor
    · intro h file hmem hbinary
      apply (intoMatches_eq_iff _ _ _).mp
      exact h file (List.mem_filter.mpr ⟨hmem, by rw [hbinary]; rfl⟩)
    · intro h file hfile
      obtain ⟨hmem, hbinary⟩ := hfiles file hfile
      exact (intoMatches_eq_iff _ _ _).mpr (h file hmem hbinary)
  · intro file _
    rw [length_intoMatches, List.length_map]

end Results

namespace TwoMatches

/-- Lines of ASCII characters. -/
abbrev asciiReaders : Utf8Readers where
  toStrLossy bytes := String.ofList (bytes.map fun b => Char.ofNat b.toNat)
  fromUtf8 bytes := some (String.ofList (bytes.map fun b => Char.ofNat b.toNat))

/-- The lines `a`, `x`, `b` and `x`, of which `x` is looked for with one line of context before
each match. -/
def groups : List MatchGroup :=
  [{ before := [[97, 10]], lineNumber := 2, line := [120, 10], after := [] },
    { before := [[98, 10]], lineNumber := 4, line := [120, 10], after := [] }]

def file : SearchedFile :=
  { path := "/w/a.txt", isBinary := false, content := [97, 10, 120, 10, 98, 10, 120, 10] }

def params : FsSearch :=
  { showLineNumbers := none, context := none, beforeContext := some 1, afterContext := none }

/-- The first match of the file, and the next one. -/
def searchSlice (groups : List MatchGroup) : GrepSearcher := fun _ _ =>
  groups.flatMap MatchGroup.events

/-- If only the first two lines are searched, the match has its context. -/
theorem searchContent_first :
    @searchContent asciiReaders (searchSlice (groups.take 1)) params [file] =
      some [@MatchGroup.entry asciiReaders "/w/a.txt" true
        { before := [[97, 10]], lineNumber := 2, line := [120, 10], after := [] }] :=
  (@searchContent_eq_iff asciiReaders (searchSlice (groups.take 1)) params rfl [file]
    (fun _ => groups.take 1) fun _ _ _ => rfl).mpr fun _ _ _ _ hg =>
      absurd hg List.not_mem_nil

/-- The line before the second match is given to the first. -/
theorem not_searchContent_second :
    ¬ ∀ (files : List SearchedFile) (groups : SearchedFile → List MatchGroup)
        (searchSlice : GrepSearcher) (params : FsSearch), params.hasContext = true →
      (∀ file ∈ files, file.isBinary = false → searchSlice params.searcherContext file.content =
        (groups file).flatMap MatchGroup.events) →
      @searchContent asciiReaders searchSlice params files =
        some ((files.filter fun file => !file.isBinary).flatMap fun file =>
          (groups file).map (@MatchGroup.entry asciiReaders file.path
            (params.showLineNumbers.getD true))) := by
  intro hsearch
  have htwo := hsearch [file] (fun _ => groups) (searchSlice groups) params rfl
    fun _ _ _ => rfl
  revert htwo
  decide

end TwoMatches

end HeliosLite
