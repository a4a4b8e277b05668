import HeliosLite.Storage.Timestamps
import HeliosLite.Theory.Run
import Mathlib

/-!
# Undoing file operations

A file that is overwritten or removed is copied to a directory of snapshots first, under a name
that is the time. Undoing writes the newest snapshot back and deletes it. The creation of a file
makes no snapshot, so that undoing it writes back an older one, if there is one.

## Main definitions

* `FileState` — a file with its snapshots
* `FileState.write`, `FileState.remove`, `FileState.undo` — the tools
* `FileLog` — a file with the states before the operations that are not undone
* `FileLog.Right` — undoing goes back to the last of these states, or changes nothing

## Main results

* `DateTime.fileName_lt_iff` — names of snapshots compare as their times do
* `FileLog.run_undoes_iff` — when undoing behaves as a stack
* `FileLog.file_after_undos` — as many undos as operations
-/

namespace HeliosLite

open Theory

/-! ### Names -/

/-- `%Y-%m-%d_%H-%M-%S-%9f`, with the extension. -/
def DateTime.fileName (t : DateTime) : List Char :=
  dateText (date t.day) ++ '_' :: (digits 2 (t.secondOfDay / 3600) ++
    '-' :: (digits 2 (t.secondOfDay / 60 % 60) ++ '-' :: (digits 2 (t.secondOfDay % 60) ++
      '-' :: (digits 9 t.nanoOfSecond ++ ".snap".toList))))

theorem DateTime.fileName_lt_iff {t u : DateTime} :
    t.fileName < u.fileName ↔ t.nanos < u.nanos := by
  have ht := t.day_eq
  have hu := u.day_eq
  have htsecond := t.secondOfDay_lt
  have husecond := u.secondOfDay_lt
  have htnano : t.nanoOfSecond < 10 ^ 9 := t.nanoOfSecond_lt
  have hunano : u.nanoOfSecond < 10 ^ 9 := u.nanoOfSecond_lt
  rw [fileName, fileName, dateText_append_lt_iff t.year_lt u.year_lt, cons_lt_cons_same,
    digits_append_lt_iff (by omega) (by omega), cons_lt_cons_same,
    digits_append_lt_iff (by omega) (by omega), cons_lt_cons_same,
    digits_append_lt_iff (by omega) (by omega), cons_lt_cons_same,
    digits_append_lt_iff htnano hunano]
  simp only [lt_irrefl, and_false, or_false]
  unfold secondOfDay nanoOfSecond
  omega

/-! ### Snapshots -/

/-- An absolute path, and what it resolves to while the file exists. -/
structure TrackedPath where
  raw : String
  canonical : String

/-- A file, and the snapshots in each directory with the times of their names. -/
structure FileState where
  file : Option ByteArray
  snapshots : String → List (DateTime × ByteArray)

inductive SnapError where
  | overwriteNotSet
  | readFailed
  | noSnapshots
  deriving DecidableEq, Repr

namespace FileState

section Tools

variable (pathHash : String → String) (p : TrackedPath) (s : FileState)

/-- The directory of the snapshots; a path that does not resolve is taken as it is. -/
def snapshotDir : String := pathHash (if s.file.isSome then p.canonical else p.raw)

/-- A file that does not exist cannot be copied. -/
def createSnapshot (now : DateTime) : Except SnapError FileState :=
  match s.file with
  | some content =>
    let dir := s.snapshotDir pathHash p
    .ok { s with
      snapshots := Function.update s.snapshots dir (s.snapshots dir ++ [(now, content)]) }
  | none => .error .readFailed

/-- The snapshot whose name comes last. -/
def findRecentSnapshot (dir : List (DateTime × ByteArray)) : Option (DateTime × ByteArray) :=
  dir.foldl
    (fun latest entry =>
      match latest with
      | none => some entry
      | some found => if found.1.fileName < entry.1.fileName then some entry else some found)
    none

/-- The newest snapshot is written back and deleted. -/
def undoSnapshot : Except SnapError FileState :=
  let dir := s.snapshotDir pathHash p
  match findRecentSnapshot (s.snapshots dir) with
  | some (time, content) =>
    .ok
      { file := some content
        snapshots := Function.update s.snapshots dir
          ((s.snapshots dir).filter fun entry => entry.1.fileName ≠ time.fileName) }
  | none => .error .noSnapshots

/-! ### Tools -/

/-- `\r\n` becomes `\n`. -/
def toLineFeeds : List Char → List Char
  | '\r' :: '\n' :: cs => '\n' :: toLineFeeds cs
  | c :: cs => c :: toLineFeeds cs
  | [] => []

/-- The bytes of a content with the line endings of the file. -/
def normalized (content : String) (lineEnding : List Char) : ByteArray :=
  (String.ofList ((toLineFeeds content.toList).flatMap fun c =>
    if c = '\n' then lineEnding else [c])).toUTF8

/-- The line endings of a file that exists. -/
def lineEnding (existing : ByteArray) : List Char :=
  if [13, 10] <:+: existing.data.toList then ['\r', '\n'] else ['\n']

def write (now : DateTime) (content : String) (overwrite : Bool) : Except SnapError FileState :=
  match s.file with
  | some existing =>
    if overwrite then do
      let s ← s.createSnapshot pathHash p now
      .ok { s with file := some (normalized content (lineEnding existing)) }
    else .error .overwriteNotSet
  | none => .ok { s with file := some (normalized content ['\n']) }

def remove (now : DateTime) : Except SnapError FileState := do
  let s ← s.createSnapshot pathHash p now
  .ok { s with file := none }

def undo : Except SnapError FileState := s.undoSnapshot pathHash p

end Tools

end FileState

/-- A call of one of the tools on the path. -/
inductive FileCall where
  | write (content : String) (overwrite : Bool)
  | remove
  | undo

def FileState.call (pathHash : String → String) (p : TrackedPath) (s : FileState)
    (now : DateTime) : FileCall → Except SnapError FileState
  | .write content overwrite => s.write pathHash p now content overwrite
  | .remove => s.remove pathHash p now
  | .undo => s.undo pathHash p

/-! ### Histories -/

/-- A file with what it was before each operation that is not undone, the newest first, and the
time of the last call. -/
structure FileLog where
  state : FileState
  before : List (Option ByteArray)
  now : DateTime

namespace FileLog

section Calls

variable (pathHash : String → String) (p : TrackedPath)

/-- A file with the snapshots that its path has already. -/
def start (file : Option ByteArray) (older : List (DateTime × ByteArray)) (began : DateTime) :
    FileLog :=
  { state :=
      { file := file
        snapshots := fun dir => if dir = pathHash p.canonical then older else [] }
    before := []
    now := began }

/-- A call that fails leaves the file and its snapshots as they were. -/
def step (h : FileLog) (c : FileCall × DateTime) : FileLog :=
  match h.state.call pathHash p c.2 c.1, c.1 with
  | .ok state, .undo => { state := state, before := h.before.tail, now := c.2 }
  | .ok state, _ => { state := state, before := h.state.file :: h.before, now := c.2 }
  | .error _, _ => { h with now := c.2 }

/-- An undo of an operation goes back to what was before it, or it fails. -/
def Right (h : FileLog) (c : FileCall × DateTime) : Prop :=
  match c.1 with
  | .undo => ∀ previous ∈ h.before.head?, ∀ state, h.state.undo pathHash p = .ok state →
      state.file = previous
  | .write _ _ | .remove => True

/-- An undo of the creation of the file is made only if the path has no snapshots. -/
def Snapshotted (h : FileLog) (c : FileCall × DateTime) : Prop :=
  match c.1 with
  | .undo => h.before.head? = some none → h.state.snapshots (h.state.snapshotDir pathHash p) = []
  | .write _ _ | .remove => True

instance (h : FileLog) (c : FileCall × DateTime) : Decidable (h.Snapshotted pathHash p c) := by
  unfold Snapshotted
  split <;> infer_instance

/-- The snapshots are in the order of their times, and the newest ones are those of the operations
that are not undone. A path that does not resolve has none. -/
structure Agrees (h : FileLog) : Prop where
  sorted : (h.state.snapshots (pathHash p.canonical)).Pairwise (·.1.nanos < ·.1.nanos)
  earlier : ∀ entry ∈ h.state.snapshots (pathHash p.canonical), entry.1.nanos ≤ h.now.nanos
  unresolved : pathHash p.raw ≠ pathHash p.canonical → h.state.snapshots (pathHash p.raw) = []
  contents : ∃ older, (h.state.snapshots (pathHash p.canonical)).map Prod.snd =
    older ++ (h.before.filterMap id).reverse

end Calls

end FileLog

/-! ### The newest snapshot -/

namespace FileState

theorem fileName_eq_iff {t u : DateTime} : t.fileName = u.fileName ↔ t.nanos = u.nanos :=
  eq_iff_of_lt_iff DateTime.fileName_lt_iff DateTime.fileName_lt_iff

theorem findRecentSnapshot_append (dir : List (DateTime × ByteArray)) (e : DateTime × ByteArray) :
    findRecentSnapshot (dir ++ [e]) =
      match findRecentSnapshot dir with
      | none => some e
      | some found => if found.1.fileName < e.1.fileName then some e else some found := by
  rw [findRecentSnapshot, List.foldl_append]
  rfl

theorem mem_of_findRecentSnapshot {dir : List (DateTime × ByteArray)} {e : DateTime × ByteArray}
    (h : findRecentSnapshot dir = some e) : e ∈ dir := by
  induction dir using List.reverseRecOn with
  | nil => cases h
  | append_singleton dir last ih =>
    rw [findRecentSnapshot_append] at h
    rw [List.mem_append, List.mem_singleton]
    cases hfound : findRecentSnapshot dir with
    | none =>
      rw [hfound] at h
      exact Or.inr (Option.some.inj h).symm
    | some found =>
      simp only [hfound] at h
      split_ifs at h
      · exact Or.inr (Option.some.inj h).symm
      · obtain rfl := Option.some.inj h
        exact Or.inl (ih hfound)

/-- In a directory in the order of the times the newest snapshot is the last one. -/
theorem findRecentSnapshot_concat {dir : List (DateTime × ByteArray)} {e : DateTime × ByteArray}
    (hsorted : (dir ++ [e]).Pairwise (·.1.nanos < ·.1.nanos)) :
    findRecentSnapshot (dir ++ [e]) = some e := by
  rw [findRecentSnapshot_append]
  cases hfound : findRecentSnapshot dir with
  | none => rfl
  | some found =>
    have hlt : found.1.nanos < e.1.nanos := (List.pairwise_append.mp hsorted).2.2 found
      (mem_of_findRecentSnapshot hfound) e List.mem_cons_self
    simp only [if_pos (DateTime.fileName_lt_iff.mpr hlt)]

/-- Deleting the newest snapshot leaves the others. -/
theorem filter_fileName_concat {dir : List (DateTime × ByteArray)} {e : DateTime × ByteArray}
    (hsorted : (dir ++ [e]).Pairwise (·.1.nanos < ·.1.nanos)) :
    (dir ++ [e]).filter (fun entry => entry.1.fileName ≠ e.1.fileName) = dir := by
  have hkept : dir.filter (fun entry => entry.1.fileName ≠ e.1.fileName) = dir := by
    rw [List.filter_eq_self]
    intro entry hentry
    have hlt : entry.1.nanos < e.1.nanos :=
      (List.pairwise_append.mp hsorted).2.2 entry hentry e List.mem_cons_self
    rw [decide_eq_true_eq, Ne, fileName_eq_iff]
    exact hlt.ne
  rw [List.filter_append, hkept]
  simp

variable {pathHash : String → String} {p : TrackedPath} {s : FileState}

theorem undo_of_empty (h : s.snapshots (s.snapshotDir pathHash p) = []) :
    s.undo pathHash p = .error .noSnapshots := by
  rw [undo, undoSnapshot]
  simp only [h]
  rfl

theorem undo_of_concat {dir : List (DateTime × ByteArray)} {e : DateTime × ByteArray}
    (h : s.snapshots (s.snapshotDir pathHash p) = dir ++ [e])
    (hsorted : (dir ++ [e]).Pairwise (·.1.nanos < ·.1.nanos)) :
    s.undo pathHash p = .ok
      { file := some e.2
        snapshots := Function.update s.snapshots (s.snapshotDir pathHash p) dir } := by
  rw [undo, undoSnapshot]
  simp only [h, findRecentSnapshot_concat hsorted, filter_fileName_concat hsorted]

end FileState

/-! ### Steps -/

namespace FileLog

variable {pathHash : String → String} {p : TrackedPath} {h : FileLog} {now : DateTime}

/-- The directory that is looked at has the snapshots of the path, or is empty. -/
theorem Agrees.snapshotDir_cases (hagrees : h.Agrees pathHash p) :
    h.state.snapshotDir pathHash p = pathHash p.canonical ∨
      h.state.snapshots (h.state.snapshotDir pathHash p) = [] := by
  unfold FileState.snapshotDir
  split_ifs
  · exact Or.inl rfl
  · by_cases hsame : pathHash p.raw = pathHash p.canonical
    · exact Or.inl hsame
    · exact Or.inr (hagrees.unresolved hsame)

/-- An undo takes the newest snapshot of the path, or it fails. -/
theorem Agrees.undo_cases (hagrees : h.Agrees pathHash p) :
    (h.state.snapshots (h.state.snapshotDir pathHash p) = [] ∧
        h.state.undo pathHash p = .error .noSnapshots) ∨
      ∃ dir e, h.state.snapshots (pathHash p.canonical) = dir ++ [e] ∧
        h.state.snapshotDir pathHash p = pathHash p.canonical ∧
          h.state.undo pathHash p = .ok
            { file := some e.2
              snapshots := Function.update h.state.snapshots (pathHash p.canonical) dir } := by
  by_cases hempty : h.state.snapshots (h.state.snapshotDir pathHash p) = []
  · exact Or.inl ⟨hempty, FileState.undo_of_empty hempty⟩
  · right
    have hdir := hagrees.snapshotDir_cases.resolve_right hempty
    rw [hdir] at hempty
    obtain ⟨dir, e, hconcat⟩ := (List.eq_nil_or_concat' _).resolve_left hempty
    refine ⟨dir, e, hconcat, hdir, ?_⟩
    have hundo := FileState.undo_of_concat (hdir.symm ▸ hconcat) (hconcat ▸ hagrees.sorted)
    rwa [hdir] at hundo

/-- The newest snapshot is that of the last operation that is not undone and made one. -/
theorem Agrees.contents_concat (hagrees : h.Agrees pathHash p)
    {dir : List (DateTime × ByteArray)} {e : DateTime × ByteArray} {content : ByteArray}
    {rest : List (Option ByteArray)}
    (hconcat : h.state.snapshots (pathHash p.canonical) = dir ++ [e])
    (hbefore : h.before = some content :: rest) :
    e.2 = content ∧ ∃ older, dir.map Prod.snd = older ++ (rest.filterMap id).reverse := by
  obtain ⟨older, hcontents⟩ := hagrees.contents
  have hlast : dir.map Prod.snd ++ [e.2] =
      (older ++ (rest.filterMap id).reverse) ++ [content] := by
    rw [hconcat, hbefore] at hcontents
    simpa [List.append_assoc] using hcontents
  obtain ⟨hdir, hcontent⟩ := List.append_inj' hlast rfl
  exact ⟨List.singleton_inj.mp hcontent, older, hdir⟩

/-- An undo is right exactly if it is not that of a creation, or there are no snapshots. -/
theorem right_iff (hagrees : h.Agrees pathHash p) (c : FileCall × DateTime) :
    h.Right pathHash p c ↔ h.Snapshotted pathHash p c := by
  obtain ⟨call, now⟩ := c
  cases call with
  | write content overwrite => exact Iff.rfl
  | remove => exact Iff.rfl
  | undo =>
    unfold Right Snapshotted
    rcases hagrees.undo_cases with ⟨hempty, hundo⟩ | ⟨dir, e, hconcat, hdir, hundo⟩
    · refine iff_of_true ?_ fun _ => hempty
      intro previous _ state hstate
      rw [hundo] at hstate
      cases hstate
    · simp only [hundo, hdir, hconcat]
      constructor
      · intro hright hcreated
        cases hright none hcreated _ rfl
      · intro hsnapshotted previous hprevious state hstate
        obtain rfl := Except.ok.inj hstate
        cases previous with
        | none => exact absurd (hsnapshotted hprevious) (List.append_ne_nil_of_right_ne_nil _ nofun)
        | some content =>
          obtain ⟨rest, hbefore⟩ := List.head?_eq_some_iff.mp hprevious
          rw [(hagrees.contents_concat hconcat hbefore).1]

theorem Agrees.later (hagrees : h.Agrees pathHash p) (hnow : h.now.nanos < now.nanos) :
    Agrees pathHash p { h with now := now } where
  sorted := hagrees.sorted
  earlier entry hentry := (hagrees.earlier entry hentry).trans hnow.le
  unresolved := hagrees.unresolved
  contents := hagrees.contents

/-- The file is copied before it changes. -/
theorem Agrees.push (hagrees : h.Agrees pathHash p) (hnow : h.now.nanos < now.nanos)
    (content : ByteArray) (file : Option ByteArray) :
    Agrees pathHash p
      { state :=
          { file := file
            snapshots := Function.update h.state.snapshots (pathHash p.canonical)
              (h.state.snapshots (pathHash p.canonical) ++ [(now, content)]) }
        before := some content :: h.before
        now := now } where
  sorted := by
    simp only [Function.update_self, List.pairwise_append]
    refine ⟨hagrees.sorted, List.pairwise_singleton _ _, ?_⟩
    intro entry hentry last hlast
    rw [List.mem_singleton.mp hlast]
    exact (hagrees.earlier entry hentry).trans_lt hnow
  earlier := by
    simp only [Function.update_self]
    intro entry hentry
    rcases List.mem_append.mp hentry with hentry | hentry
    · exact (hagrees.earlier entry hentry).trans hnow.le
    · rw [List.mem_singleton.mp hentry]
  unresolved := by
    intro hne
    simp only [Function.update_of_ne hne]
    exact hagrees.unresolved hne
  contents := by
    obtain ⟨older, hcontents⟩ := hagrees.contents
    refine ⟨older, ?_⟩
    simp [hcontents]

/-- The file is created. -/
theorem Agrees.create (hagrees : h.Agrees pathHash p) (hnow : h.now.nanos < now.nanos)
    (file : Option ByteArray) :
    Agrees pathHash p
      { state := { h.state with file := file }
        before := none :: h.before
        now := now } where
  sorted := hagrees.sorted
  earlier entry hentry := (hagrees.earlier entry hentry).trans hnow.le
  unresolved := hagrees.unresolved
  contents := hagrees.contents

/-- The newest snapshot is written back. -/
theorem Agrees.pop (hagrees : h.Agrees pathHash p) (hnow : h.now.nanos < now.nanos)
    {dir : List (DateTime × ByteArray)} {e : DateTime × ByteArray}
    (hconcat : h.state.snapshots (pathHash p.canonical) = dir ++ [e])
    (hcreated : h.before.head? ≠ some none) (file : Option ByteArray) :
    Agrees pathHash p
      { state :=
          { file := file
            snapshots := Function.update h.state.snapshots (pathHash p.canonical) dir }
        before := h.before.tail
        now := now } where
  sorted := by
    simp only [Function.update_self]
    exact (List.pairwise_append.mp (hconcat ▸ hagrees.sorted)).1
  earlier := by
    simp only [Function.update_self]
    intro entry hentry
    have hmem : entry ∈ h.state.snapshots (pathHash p.canonical) := by
      rw [hconcat]
      exact List.mem_append_left _ hentry
    exact (hagrees.earlier entry hmem).trans hnow.le
  unresolved := by
    intro hne
    simp only [Function.update_of_ne hne]
    exact hagrees.unresolved hne
  contents := by
    simp only [Function.update_self]
    cases hbefore : h.before with
    | nil => exact ⟨dir.map Prod.snd, (List.append_nil _).symm⟩
    | cons previous rest =>
      cases previous with
      | none =>
        rw [hbefore] at hcreated
        exact absurd rfl hcreated
      | some content => exact (hagrees.contents_concat hconcat hbefore).2

theorem Agrees.step (hagrees : h.Agrees pathHash p) {c : FileCall × DateTime}
    (hnow : h.now.nanos < c.2.nanos) (hsnapshotted : h.Snapshotted pathHash p c) :
    (h.step pathHash p c).Agrees pathHash p := by
  obtain ⟨call, now⟩ := c
  cases call with
  | undo =>
    rcases hagrees.undo_cases with ⟨-, hundo⟩ | ⟨dir, e, hconcat, hdir, hundo⟩
    · rw [FileLog.step, FileState.call, hundo]
      exact hagrees.later hnow
    · have hcreated : h.before.head? ≠ some none := by
        intro hnone
        have hempty := hsnapshotted hnone
        rw [hdir, hconcat] at hempty
        exact List.append_ne_nil_of_right_ne_nil _ (List.cons_ne_nil _ _) hempty
      rw [FileLog.step, FileState.call, hundo]
      exact hagrees.pop hnow hconcat hcreated _
  | write content overwrite =>
    cases hfile : h.state.file with
    | none =>
      have hcall : h.state.call pathHash p now (.write content overwrite) =
          .ok { h.state with file := some (FileState.normalized content ['\n']) } := by
        rw [FileState.call, FileState.write, hfile]
      rw [FileLog.step, hcall, hfile]
      exact hagrees.create hnow _
    | some existing =>
      cases overwrite with
      | false =>
        have hcall : h.state.call pathHash p now (.write content false) =
            .error .overwriteNotSet := by
          rw [FileState.call, FileState.write, hfile]
          rfl
        rw [FileLog.step, hcall]
        exact hagrees.later hnow
      | true =>
        rw [FileLog.step, FileState.call, FileState.write, FileState.createSnapshot,
          FileState.snapshotDir, hfile]
        exact hagrees.push hnow existing _
  | remove =>
    cases hfile : h.state.file with
    | none =>
      have hcall : h.state.call pathHash p now .remove = .error .readFailed := by
        rw [FileState.call, FileState.remove, FileState.createSnapshot, hfile]
        rfl
      rw [FileLog.step, hcall]
      exact hagrees.later hnow
    | some existing =>
      rw [FileLog.step, FileState.call, FileState.remove, FileState.createSnapshot,
        FileState.snapshotDir, hfile]
      exact hagrees.push hnow existing _

theorem agrees_start (pathHash : String → String) (p : TrackedPath) (file : Option ByteArray)
    {older : List (DateTime × ByteArray)} {began : DateTime}
    (hsorted : older.Pairwise (·.1.nanos < ·.1.nanos))
    (holder : ∀ entry ∈ older, entry.1.nanos < began.nanos) :
    (start pathHash p file older began).Agrees pathHash p where
  sorted := by simpa [start] using hsorted
  earlier := by
    intro entry hentry
    simp only [start, if_true] at hentry ⊢
    exact (holder entry hentry).le
  unresolved hne := if_neg hne
  contents := ⟨older.map Prod.snd, by simp [start]⟩

/-- The times of the calls increase. -/
theorem meets_of_increasing {calls : List (FileCall × DateTime)}
    (hincreasing : (h.now :: calls.map Prod.snd).Pairwise (·.nanos < ·.nanos)) :
    Meets (step pathHash p) (fun h c => h.now.nanos < c.2.nanos) h calls := by
  induction calls generalizing h with
  | nil => trivial
  | cons c calls ih =>
    obtain ⟨hfirst, hrest⟩ := List.pairwise_cons.mp hincreasing
    have hnow : (h.step pathHash p c).now = c.2 := by
      unfold step
      split <;> rfl
    exact ⟨hfirst c.2 List.mem_cons_self, ih (hnow.symm ▸ hrest)⟩

/-- In every history of calls at increasing times, from any state of the file and with any older
snapshots of its path, each undo of an operation goes back to what was before it or fails and
changes nothing, if and only if no creation is undone while the path has snapshots. -/
theorem run_undoes_iff (pathHash : String → String) (p : TrackedPath) (file : Option ByteArray)
    (older : List (DateTime × ByteArray)) (began : DateTime) (calls : List (FileCall × DateTime))
    (htimes : (older.map Prod.fst ++ began :: calls.map Prod.snd).Pairwise (·.nanos < ·.nanos)) :
    Meets (step pathHash p) (Right pathHash p) (start pathHash p file older began) calls ↔
      Meets (step pathHash p) (Snapshotted pathHash p) (start pathHash p file older began)
        calls := by
  obtain ⟨hsorted, hincreasing, hbetween⟩ := List.pairwise_append.mp htimes
  have holder : ∀ entry ∈ older, entry.1.nanos < began.nanos := fun entry hentry =>
    hbetween entry.1 (List.mem_map_of_mem hentry) began List.mem_cons_self
  apply meets_iff _ _ (meets_of_increasing hincreasing)
    (agrees_start pathHash p file (by simpa [List.pairwise_map] using hsorted) holder)
  · intro h c _ hagrees
    exact right_iff hagrees c
  · intro h c hnow hsnapshotted hagrees
    exact hagrees.step hnow hsnapshotted

/-! ### Stacks -/

/-- The file and what it was before. -/
def stack (h : FileLog) : List (Option ByteArray) := h.state.file :: h.before

def Succeeds (pathHash : String → String) (p : TrackedPath) (h : FileLog)
    (c : FileCall × DateTime) : Prop :=
  (h.state.call pathHash p c.2 c.1).isOk = true

theorem stack_step_of_ne {c : FileCall × DateTime} (hcall : c.1 ≠ .undo)
    (hsucceeds : h.Succeeds pathHash p c) : (h.step pathHash p c).stack.tail = h.stack := by
  unfold Succeeds at hsucceeds
  unfold step
  split
  · exact absurd ‹_› hcall
  · rfl
  · next herror =>
    rw [herror] at hsucceeds
    cases hsucceeds

theorem stack_step_of_undo {c : FileCall × DateTime} (hcall : c.1 = .undo)
    (hsucceeds : h.Succeeds pathHash p c) (hright : h.Right pathHash p c)
    (hbefore : h.before ≠ []) : (h.step pathHash p c).stack = h.stack.tail := by
  obtain ⟨call, now⟩ := c
  obtain rfl : call = .undo := hcall
  obtain ⟨previous, rest, hcons⟩ := List.exists_cons_of_ne_nil hbefore
  unfold Succeeds FileState.call at hsucceeds
  cases hundo : h.state.undo pathHash p with
  | error e =>
    simp only [hundo] at hsucceeds
    cases hsucceeds
  | ok state =>
    have hfile : state.file = previous := hright previous (by rw [hcons]; rfl) state hundo
    rw [step, FileState.call, hundo]
    simp only [stack, hfile, hcons, List.tail_cons]

/-- Undos take states from the stack. -/
theorem stack_undos {undos : List (FileCall × DateTime)} (hundos : ∀ c ∈ undos, c.1 = .undo)
    (hsucceeds : Meets (step pathHash p) (Succeeds pathHash p) h undos)
    (hright : Meets (step pathHash p) (Right pathHash p) h undos)
    (hlength : undos.length ≤ h.before.length) :
    (run (step pathHash p) h undos).stack = h.stack.drop undos.length := by
  induction undos generalizing h with
  | nil => rfl
  | cons c undos ih =>
    obtain ⟨hc, hundos⟩ := List.forall_mem_cons.mp hundos
    have hbefore : h.before ≠ [] := by
      rintro hnil
      rw [hnil] at hlength
      cases hlength
    have hstack := stack_step_of_undo hc hsucceeds.1 hright.1 hbefore
    have hshorter : undos.length ≤ (h.step pathHash p c).before.length := by
      have hlengths := congrArg List.length hstack
      simp only [stack, List.length_cons, List.tail_cons] at hlengths hlength
      omega
    rw [run_cons, ih hundos hsucceeds.2 hright.2 hshorter, hstack, List.drop_tail,
      List.length_cons]

/-- Operations put states on the stack. -/
theorem stack_calls {calls : List (FileCall × DateTime)} (hcalls : ∀ c ∈ calls, c.1 ≠ .undo)
    (hsucceeds : Meets (step pathHash p) (Succeeds pathHash p) h calls) :
    (run (step pathHash p) h calls).stack.drop calls.length = h.stack := by
  induction calls using List.reverseRecOn with
  | nil => rfl
  | append_singleton calls c ih =>
    rw [meets_append] at hsucceeds
    have hc : c.1 ≠ .undo := hcalls c (List.mem_append_right _ List.mem_cons_self)
    have hrest := ih (fun d hd => hcalls d (List.mem_append_left _ hd)) hsucceeds.1
    rw [run_append, run_cons, run_nil, List.length_append, List.length_singleton,
      ← List.drop_tail, stack_step_of_ne hc hsucceeds.2.1, hrest]

/-- After some operations and not more undos, all successful, the file is what it was before as
many of the last operations. -/
theorem file_after_undos {calls undos : List (FileCall × DateTime)}
    (hcalls : ∀ c ∈ calls, c.1 ≠ .undo) (hundos : ∀ c ∈ undos, c.1 = .undo)
    (hsucceeds : Meets (step pathHash p) (Succeeds pathHash p) h (calls ++ undos))
    (hright : Meets (step pathHash p) (Right pathHash p) h (calls ++ undos))
    (hlength : undos.length ≤ calls.length) :
    (run (step pathHash p) h (calls ++ undos)).state.file =
      (run (step pathHash p) h (calls.take (calls.length - undos.length))).state.file := by
  obtain ⟨hsucceedsCalls, hsucceedsUndos⟩ := meets_append.mp hsucceeds
  have hrightUndos := (meets_append.mp hright).2
  have hwhole := congrArg List.length (stack_calls hcalls hsucceedsCalls)
  have hbefore : undos.length ≤ (run (step pathHash p) h calls).before.length := by
    simp only [stack, List.length_drop, List.length_cons] at hwhole
    omega
  have hundone := stack_undos hundos hsucceedsUndos hrightUndos hbefore
  -- The operations that are undone are the last ones.
  have hsplit := List.take_append_drop (calls.length - undos.length) calls
  rw [← hsplit] at hsucceedsCalls
  have hlast := stack_calls (fun c hc => hcalls c (List.mem_of_mem_drop hc))
    (meets_append.mp hsucceedsCalls).2
  rw [← run_append, hsplit, List.length_drop, Nat.sub_sub_self hlength, ← hundone,
    ← run_append] at hlast
  exact (List.cons.inj hlast).1

end FileLog

namespace UndoneCreation

/-- A second of the first of January 1970. -/
def second (n : Fin 60) : DateTime where
  nanos := n * 1000000000
  lower := by omega
  upper := by omega

def path : TrackedPath := { raw := "/w/a.txt", canonical := "/w/a.txt" }

/-- The file is created, overwritten, and the second content is undone. -/
def overwritten : List (FileCall × DateTime) :=
  [(.write "a" true, second 1), (.write "b" true, second 2), (.undo, second 3)]

theorem run_right_overwritten :
    Meets (FileLog.step id path) (FileLog.Right id path) (.start id path none [] (second 0))
      overwritten :=
  (FileLog.run_undoes_iff id path none [] (second 0) overwritten (by decide)).mpr
    (by decide +kernel)

/-- A file is removed, and a new one is created and undone. -/
def created : List (FileCall × DateTime) :=
  [(.remove, second 1), (.write "b" true, second 2), (.undo, second 3)]

/-- Undoing the creation of a file brings back the one that was removed before. -/
theorem run_undone_not_right :
    ¬Meets (FileLog.step id path) (FileLog.Right id path)
      (.start id path (some "a".toUTF8) [] (second 0)) created := by
  rintro ⟨-, -, hright, -⟩
  have hrestored : ((run (FileLog.step id path) (.start id path (some "a".toUTF8) [] (second 0))
      (created.take 2)).state.undo id path).toOption.any fun s => s.file.isSome := by
    decide +kernel
  obtain ⟨state, hstate, hsome⟩ := (Option.any_eq_true _ _).mp hrestored
  cases hundo : (run (FileLog.step id path) (.start id path (some "a".toUTF8) [] (second 0))
      (created.take 2)).state.undo id path with
  | error e =>
    rw [hundo] at hstate
    cases hstate
  | ok found =>
    rw [hundo] at hstate
    obtain rfl := Option.some.inj hstate
    rw [hright none rfl found hundo] at hsome
    cases hsome

end UndoneCreation

end HeliosLite
