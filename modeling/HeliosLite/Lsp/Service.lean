import Mathlib.Data.PNat.Defs
import HeliosLite.Lsp.Tsc
import HeliosLite.Theory.Entries
import HeliosLite.Theory.Run

/-!
# The diagnostics service

`DiagnosticsService` looks a path up in its cache, lets the first provider that supports it run,
and inserts what it reported; the lock on the cache is released in between. A file that is written
is invalidated afterwards.

The contents that a file has one after the other are numbered, and the diagnostics that go around
are kept with the number of the content that they are of.

## Main definitions

* `LruCache` — the cache, which is never over its capacity
* `ServiceWorld.step` — a step of a call, of a writer, or of one who invalidates
* `ServiceWorld.Fresh` — what the calls returned is of a content that is recent enough
* `Undisturbed` — no invalidation falls between the run of a provider and the insertion

## Main results

* `forall_fresh_iff` — the calls of a run, and the readers behind it, are fresh exactly if all
  insertions are undisturbed
-/

namespace HeliosLite.Lsp

open Theory

/-! ### The cache -/

/-- A bounded map. Which entry makes way for a new one is not specified. -/
structure LruCache (κ β : Type) where
  map : List (κ × β)
  capacity : ℕ+
  nodup : (map.map Prod.fst).Nodup
  bounded : map.length ≤ capacity

namespace LruCache

variable {κ β : Type}

def new (capacity : ℕ+) : LruCache κ β := ⟨[], capacity, List.nodup_nil, Nat.zero_le _⟩

def default : LruCache κ β := new 64

def len (self : LruCache κ β) : ℕ := self.map.length

def get [DecidableEq κ] (self : LruCache κ β) (key : κ) : Option β := self.map.lookup key

/-- The map with room for an entry; `victim` is where the entry stands that makes way. -/
def room (self : LruCache κ β) (victim : ℕ) : List (κ × β) :=
  if self.capacity ≤ self.map.length then self.map.eraseIdx (victim % self.map.length)
  else self.map

theorem room_sublist (self : LruCache κ β) (victim : ℕ) : (self.room victim).Sublist self.map := by
  rw [room]
  split_ifs
  · exact List.eraseIdx_sublist _ _
  · exact List.Sublist.refl _

theorem length_room_lt (self : LruCache κ β) (victim : ℕ) :
    (self.room victim).length < self.capacity := by
  have hpos := self.capacity.pos
  have hbounded := self.bounded
  rw [room]
  split_ifs with hfull
  · rw [List.length_eraseIdx_of_lt (Nat.mod_lt _ (by omega))]
    omega
  · exact Nat.lt_of_not_le hfull

variable [DecidableEq κ]

def insert (self : LruCache κ β) (key : κ) (value : β) (victim : ℕ) : LruCache κ β where
  map := insertEntry (self.room victim) key value
  capacity := self.capacity
  nodup := nodup_insertEntry (((self.room_sublist victim).map Prod.fst).nodup self.nodup)
  bounded := length_insertEntry_le.trans (self.length_room_lt victim)

def invalidate (self : LruCache κ β) (key : κ) : LruCache κ β where
  map := removeEntry self.map key
  capacity := self.capacity
  nodup := (List.filter_sublist.map Prod.fst).nodup self.nodup
  bounded := (List.length_filter_le _ _).trans self.bounded

end LruCache

/-! ### Calls -/

abbrev DiagnosticsResult := Except String (List Diagnostic)

/-- A provider, with what it reports on a content of a file. -/
structure DiagnosticsProvider (κ Content : Type) where
  supports : κ → Bool
  diagnostics : κ → Content → DiagnosticsResult

/-- Where a call of `diagnostics_for_path` stands. A result is kept with the number of the content
that the provider read, if one ran. -/
inductive CallPhase where
  | looking
  | running
  | provided (result : DiagnosticsResult) (index : ℕ)
  | returned (result : DiagnosticsResult) (index : Option ℕ)

/-- A call, with the number of the content that its path had when it was last invalidated before the
call. -/
structure ServiceCall (κ : Type) where
  path : κ
  since : ℕ
  phase : CallPhase

/-- The number of the content that each file has, and had when it was last invalidated, and the
cache and the calls of the service. -/
structure ServiceWorld (κ : Type) where
  version : κ → ℕ
  invalidated : κ → ℕ
  cache : LruCache κ (List Diagnostic × ℕ)
  calls : ℕ → Option (ServiceCall κ)

inductive ServiceAction (κ : Type) where
  | change (path : κ)
  | invalidate (path : κ)
  | start (call : ℕ) (path : κ)
  | lookup (call : ℕ)
  | provide (call : ℕ)
  | insert (call : ℕ) (victim : ℕ)

section Steps

variable {κ Content : Type} [DecidableEq κ] (providers : List (DiagnosticsProvider κ Content))
  (content : κ → ℕ → Content)

/-- The first provider that supports the path. -/
def providerFor (path : κ) : Option (DiagnosticsProvider κ Content) :=
  providers.find? fun provider => provider.supports path

namespace ServiceWorld

def start : ServiceWorld κ where
  version _ := 0
  invalidated _ := 0
  cache := .default
  calls _ := none

def setCall (w : ServiceWorld κ) (i : ℕ) (call : ServiceCall κ) : ServiceWorld κ :=
  { w with calls := fun j => if j = i then some call else w.calls j }

def setPhase (w : ServiceWorld κ) (i : ℕ) (call : ServiceCall κ) (phase : CallPhase) :
    ServiceWorld κ :=
  w.setCall i { call with phase }

/-- The call looks the path up. A path without a provider has no diagnostics. -/
def lookupStep (w : ServiceWorld κ) (i : ℕ) (call : ServiceCall κ) : ServiceWorld κ :=
  match w.cache.get call.path with
  | some (diags, index) => w.setPhase i call (.returned (.ok diags) (some index))
  | none =>
    match providerFor providers call.path with
    | some _ => w.setPhase i call .running
    | none => w.setPhase i call (.returned (.ok []) none)

/-- The provider reads the file while it runs. -/
def provideStep (w : ServiceWorld κ) (i : ℕ) (call : ServiceCall κ) : ServiceWorld κ :=
  match providerFor providers call.path with
  | some provider =>
    let index := w.version call.path
    w.setPhase i call (.provided (provider.diagnostics call.path (content call.path index)) index)
  | none => w

/-- What the provider reported is inserted and returned, unless it failed. -/
def insertStep (w : ServiceWorld κ) (i : ℕ) (call : ServiceCall κ) (result : DiagnosticsResult)
    (index victim : ℕ) : ServiceWorld κ :=
  match result with
  | .ok diags =>
    { w with cache := w.cache.insert call.path (diags, index) victim }.setPhase i call
      (.returned result (some index))
  | .error _ => w.setPhase i call (.returned result (some index))

/-- One step. A step that the call does not come to changes nothing. -/
def step (w : ServiceWorld κ) : ServiceAction κ → ServiceWorld κ
  | .change path =>
    { w with version := fun other => w.version other + if other = path then 1 else 0 }
  | .invalidate path =>
    { w with
      invalidated := fun other => if other = path then w.version path else w.invalidated other
      cache := w.cache.invalidate path }
  | .start i path => w.setCall i ⟨path, w.invalidated path, .looking⟩
  | .lookup i =>
    match w.calls i with
    | some call =>
      match call.phase with
      | .looking => w.lookupStep providers i call
      | _ => w
    | none => w
  | .provide i =>
    match w.calls i with
    | some call =>
      match call.phase with
      | .running => w.provideStep providers content i call
      | _ => w
    | none => w
  | .insert i victim =>
    match w.calls i with
    | some call =>
      match call.phase with
      | .provided result index => w.insertStep i call result index victim
      | _ => w
    | none => w

/-- The diagnostics are those of the content. -/
def Reported (path : κ) (diags : List Diagnostic) (index : ℕ) : Prop :=
  ∃ provider, providerFor providers path = some provider ∧
    provider.diagnostics path (content path index) = .ok diags

/-- Diagnostics that were returned for a path with a provider are of a content that the path had
when it was last invalidated before the call, or later. -/
def Fresh (w : ServiceWorld κ) : Prop :=
  ∀ i call diags index, w.calls i = some call → call.phase = .returned (.ok diags) index →
    (providerFor providers call.path).isSome → ∃ n, index = some n ∧ call.since ≤ n ∧
      n ≤ w.version call.path ∧ Reported providers content call.path diags n

/-- A cached entry is no older than the last invalidation. -/
structure EntryFresh (w : ServiceWorld κ) (entry : κ × List Diagnostic × ℕ) : Prop where
  invalidated_le : w.invalidated entry.1 ≤ entry.2.2
  le_version : entry.2.2 ≤ w.version entry.1
  reported : Reported providers content entry.1 entry.2.1 entry.2.2

/-- What a call knows. -/
def CallFresh (w : ServiceWorld κ) (call : ServiceCall κ) : Prop :=
  match call.phase with
  | .looking | .running => call.since ≤ w.invalidated call.path
  | .provided result index => call.since ≤ index ∧ index ≤ w.version call.path ∧
      ∀ diags, result = .ok diags → Reported providers content call.path diags index
  | .returned result index => ∀ diags, result = .ok diags →
      (providerFor providers call.path).isSome → ∃ n, index = some n ∧ call.since ≤ n ∧
        n ≤ w.version call.path ∧ Reported providers content call.path diags n

structure Inv (w : ServiceWorld κ) : Prop where
  invalidated_le : ∀ path, w.invalidated path ≤ w.version path
  entries : ∀ entry ∈ w.cache.map, EntryFresh providers content w entry
  calls : ∀ i call, w.calls i = some call → CallFresh providers content w call

variable {providers content} {w : ServiceWorld κ} {i : ℕ} {call : ServiceCall κ}

omit [DecidableEq κ] in
theorem Inv.fresh (h : Inv providers content w) : Fresh providers content w := by
  intro i call diags index hcall hphase hprovider
  have hfresh := h.calls i call hcall
  rw [CallFresh, hphase] at hfresh
  exact hfresh diags rfl hprovider

omit [DecidableEq κ] in
/-- A call keeps what it knows while files change and are invalidated. -/
theorem CallFresh.mono {w' : ServiceWorld κ} (h : CallFresh providers content w call)
    (hinvalidated : ∀ path, w.invalidated path ≤ w'.invalidated path)
    (hversion : ∀ path, w.version path ≤ w'.version path) :
    CallFresh providers content w' call := by
  unfold CallFresh at h ⊢
  cases hphase : call.phase with
  | looking | running =>
    rw [hphase] at h
    exact h.trans (hinvalidated call.path)
  | provided result index =>
    rw [hphase] at h
    exact ⟨h.1, h.2.1.trans (hversion call.path), h.2.2⟩
  | returned result index =>
    rw [hphase] at h
    intro diags hresult hprovider
    obtain ⟨n, hindex, hsince, hn, hreported⟩ := h diags hresult hprovider
    exact ⟨n, hindex, hsince, hn.trans (hversion call.path), hreported⟩

omit [DecidableEq κ] in
theorem Inv.setCall (h : Inv providers content w) (hcall : CallFresh providers content w call) :
    Inv providers content (w.setCall i call) := by
  refine ⟨h.invalidated_le, fun entry hentry => ?_, ?_⟩
  · obtain ⟨hinvalidated, hversion, hreported⟩ := h.entries entry hentry
    exact ⟨hinvalidated, hversion, hreported⟩
  · intro j other hother
    have hmono : ∀ other, CallFresh providers content w other →
        CallFresh providers content (w.setCall i call) other := fun other hother =>
      hother.mono (fun _ => Nat.le_refl _) fun _ => Nat.le_refl _
    rw [ServiceWorld.setCall] at hother
    dsimp only at hother
    split_ifs at hother
    · obtain rfl := Option.some.inj hother
      exact hmono call hcall
    · exact hmono other (h.calls j other hother)

theorem Inv.lookupStep (h : Inv providers content w) (hcall : w.calls i = some call)
    (hphase : call.phase = .looking) : Inv providers content (w.lookupStep providers i call) := by
  have hsince : call.since ≤ w.invalidated call.path := by
    have hfresh := h.calls i call hcall
    rwa [CallFresh, hphase] at hfresh
  rw [ServiceWorld.lookupStep]
  cases hget : w.cache.get call.path with
  | some entry =>
    obtain ⟨diags, index⟩ := entry
    have hentry := h.entries _ (mem_of_lookup hget)
    apply h.setCall
    intro diags' hdiags _
    obtain rfl := Except.ok.inj hdiags
    exact ⟨index, rfl, hsince.trans hentry.invalidated_le, hentry.le_version, hentry.reported⟩
  | none =>
    cases hprovider : providerFor providers call.path with
    | some provider => exact h.setCall hsince
    | none =>
      apply h.setCall
      intro _ _ hsome
      rw [hprovider] at hsome
      cases hsome

omit [DecidableEq κ] in
theorem Inv.provideStep (h : Inv providers content w) (hcall : w.calls i = some call)
    (hphase : call.phase = .running) :
    Inv providers content (w.provideStep providers content i call) := by
  have hsince : call.since ≤ w.invalidated call.path := by
    have hfresh := h.calls i call hcall
    rwa [CallFresh, hphase] at hfresh
  rw [ServiceWorld.provideStep]
  cases hprovider : providerFor providers call.path with
  | none => exact h
  | some provider =>
    apply h.setCall
    refine ⟨hsince.trans (h.invalidated_le call.path), Nat.le_refl _, ?_⟩
    intro diags hdiags
    exact ⟨provider, hprovider, hdiags⟩

/-- An insertion is fine if the path was not invalidated since the provider read the file. -/
theorem Inv.insertStep {result : DiagnosticsResult} {index victim : ℕ}
    (h : Inv providers content w) (hcall : w.calls i = some call)
    (hphase : call.phase = .provided result index)
    (hguard : ∀ diags, result = .ok diags → w.invalidated call.path ≤ index) :
    Inv providers content (w.insertStep i call result index victim) := by
  obtain ⟨hsince, hversion, hreported⟩ :
      call.since ≤ index ∧ index ≤ w.version call.path ∧
        ∀ diags, result = .ok diags → Reported providers content call.path diags index := by
    have hfresh := h.calls i call hcall
    rwa [CallFresh, hphase] at hfresh
  have hreturned : ∀ diags, result = .ok diags → (providerFor providers call.path).isSome →
      ∃ n, some index = some n ∧ call.since ≤ n ∧ n ≤ w.version call.path ∧
        Reported providers content call.path diags n := fun diags hdiags _ =>
    ⟨index, rfl, hsince, hversion, hreported diags hdiags⟩
  cases result with
  | error e => exact h.setCall hreturned
  | ok diags =>
    rw [ServiceWorld.insertStep]
    apply Inv.setCall
    · refine ⟨h.invalidated_le, ?_, ?_⟩
      · intro entry hentry
        rcases mem_insertEntry hentry with rfl | hold
        · exact ⟨hguard diags rfl, hversion, hreported diags rfl⟩
        · obtain ⟨hinvalidated, hle, hrep⟩ :=
            h.entries entry ((w.cache.room_sublist victim).subset hold)
          exact ⟨hinvalidated, hle, hrep⟩
      · intro j other hother
        exact (h.calls j other hother).mono (fun _ => Nat.le_refl _) fun _ => Nat.le_refl _
    · exact hreturned

theorem Inv.change (h : Inv providers content w) (path : κ) :
    Inv providers content (w.step providers content (.change path)) := by
  have hversion : ∀ other, w.version other ≤ w.version other + if other = path then 1 else 0 :=
    fun other => Nat.le_add_right _ _
  refine ⟨fun other => (h.invalidated_le other).trans (hversion other), ?_, ?_⟩
  · intro entry hentry
    obtain ⟨hinvalidated, hle, hreported⟩ := h.entries entry hentry
    exact ⟨hinvalidated, hle.trans (hversion entry.1), hreported⟩
  · intro j other hother
    exact (h.calls j other hother).mono (fun _ => Nat.le_refl _) hversion

theorem Inv.invalidate (h : Inv providers content w) (path : κ) :
    Inv providers content (w.step providers content (.invalidate path)) := by
  refine ⟨?_, ?_, ?_⟩
  · intro other
    simp only [step]
    split_ifs with heq
    · rw [heq]
    · exact h.invalidated_le other
  · intro entry hentry
    obtain ⟨hmem, hne⟩ := List.mem_filter.mp hentry
    obtain ⟨hinvalidated, hle, hreported⟩ := h.entries entry hmem
    refine ⟨?_, hle, hreported⟩
    simp only [step]
    rwa [if_neg (of_decide_eq_true hne)]
  · intro j other hother
    refine (h.calls j other hother).mono ?_ fun _ => Nat.le_refl _
    intro p
    simp only [step]
    split_ifs with heq
    · exact heq ▸ h.invalidated_le p
    · exact Nat.le_refl _

/-- The step of an insertion comes when the path was not invalidated since its provider read the
file. -/
def Undisturbed (w : ServiceWorld κ) : ServiceAction κ → Prop
  | .insert i _ => ∀ call diags index, w.calls i = some call →
      call.phase = .provided (.ok diags) index → w.invalidated call.path ≤ index
  | _ => True

theorem Inv.step (h : Inv providers content w) {action : ServiceAction κ}
    (hguard : Undisturbed w action) : Inv providers content (w.step providers content action) := by
  cases action with
  | change path => exact h.change path
  | invalidate path => exact h.invalidate path
  | start i path => exact h.setCall (Nat.le_refl _)
  | lookup i =>
    simp only [ServiceWorld.step]
    split
    · next call hcall =>
      split
      · next hphase => exact h.lookupStep hcall hphase
      · exact h
    · exact h
  | provide i =>
    simp only [ServiceWorld.step]
    split
    · next call hcall =>
      split
      · next hphase => exact h.provideStep hcall hphase
      · exact h
    · exact h
  | insert i victim =>
    simp only [ServiceWorld.step]
    split
    · next call hcall =>
      split
      · next result index hphase =>
        apply h.insertStep hcall hphase
        rintro diags rfl
        exact hguard call diags index hcall hphase
      · exact h
    · exact h

omit [DecidableEq κ] in
theorem inv_start : Inv providers content (start : ServiceWorld κ) where
  invalidated_le _ := Nat.le_refl 0
  entries _ hentry := absurd hentry List.not_mem_nil
  calls _ _ hcall := absurd hcall.symm (Option.some_ne_none _)

/-- A step of a reader that looks up what is cached. -/
def IsRead : ServiceAction κ → Prop
  | .start _ _ | .lookup _ => True
  | _ => False

omit [DecidableEq κ] in
theorem undisturbed_of_isRead {action : ServiceAction κ} (h : IsRead action) :
    Undisturbed w action := by
  cases action with
  | start | lookup | change | invalidate | provide => trivial
  | insert => cases h

variable (providers content) in
/-- The calls are fresh, whatever readers look up next. -/
def StaysFresh (w : ServiceWorld κ) : Prop :=
  ∀ reads : List (ServiceAction κ), (∀ action ∈ reads, IsRead action) →
    Fresh providers content (run (step providers content) w reads)

theorem Inv.staysFresh (h : Inv providers content w) : StaysFresh providers content w := by
  intro reads hreads
  have hmeets : Meets (ServiceWorld.step providers content) Undisturbed w reads :=
    (meets_of_forall hreads).imp fun _ _ hread => undisturbed_of_isRead hread
  exact (run_invariant (fun _ _ hguard hinv => hinv.step hguard) hmeets h).fresh

/-- Behind a disturbed insertion a reader gets diagnostics of an earlier content. -/
theorem Inv.not_staysFresh {diags : List Diagnostic} {index victim : ℕ}
    (h : Inv providers content w) (hcall : w.calls i = some call)
    (hphase : call.phase = .provided (.ok diags) index)
    (hstale : index < w.invalidated call.path) :
    ¬ StaysFresh providers content (w.step providers content (.insert i victim)) := by
  intro hfresh
  have hreported : Reported providers content call.path diags index := by
    have hknown := h.calls i call hcall
    rw [CallFresh, hphase] at hknown
    exact hknown.2.2 diags rfl
  have hinsert : w.step providers content (.insert i victim) =
      { w with cache := w.cache.insert call.path (diags, index) victim }.setPhase i call
        (.returned (.ok diags) (some index)) := by
    simp only [ServiceWorld.step, hcall, hphase, ServiceWorld.insertStep]
  have hget : (w.cache.insert call.path (diags, index) victim).get call.path =
      some (diags, index) := lookup_insertEntry_self
  -- the call starts anew and finds what was inserted
  have hread := hfresh [.start i call.path, .lookup i] (by
    intro action haction
    rcases List.mem_cons.mp haction with rfl | haction
    · trivial
    · obtain rfl := List.mem_singleton.mp haction
      trivial)
  rw [hinsert] at hread
  have hreturned : (run (ServiceWorld.step providers content)
      ({ w with cache := w.cache.insert call.path (diags, index) victim }.setPhase i call
        (.returned (.ok diags) (some index)))
      [.start i call.path, .lookup i]).calls i =
        some ⟨call.path, w.invalidated call.path, .returned (.ok diags) (some index)⟩ := by
    simp [run, ServiceWorld.step, ServiceWorld.setPhase, ServiceWorld.setCall,
      ServiceWorld.lookupStep, hget]
  obtain ⟨provider, hprovider, -⟩ := hreported
  obtain ⟨n, hn, hsince, -, -⟩ := hread i _ diags (some index) hreturned rfl
    (by rw [hprovider]; rfl)
  obtain rfl := Option.some.inj hn
  exact absurd hsince (Nat.not_le_of_lt hstale)

theorem Inv.staysFresh_step_iff (h : Inv providers content w) (action : ServiceAction κ) :
    StaysFresh providers content (w.step providers content action) ↔ Undisturbed w action := by
  constructor
  · intro hfresh
    cases action with
    | start | lookup | change | invalidate | provide => trivial
    | insert i victim =>
      intro call diags index hcall hphase
      by_contra hstale
      exact h.not_staysFresh hcall hphase (Nat.lt_of_not_le hstale) hfresh
  · intro hguard
    exact (h.step hguard).staysFresh

end ServiceWorld

open ServiceWorld

variable {providers content}

/-- In every state that a run reaches the calls are fresh, whatever readers look up next, and the
cache is within its capacity, exactly if every insertion of the run is undisturbed. -/
theorem forall_fresh_iff (actions : List (ServiceAction κ)) :
    (∀ initial, initial <+: actions →
      StaysFresh providers content (run (step providers content) .start initial) ∧
        (run (step providers content) .start initial).cache.len ≤
          (run (step providers content) .start initial).cache.capacity) ↔
      Meets (step providers content) Undisturbed (.start : ServiceWorld κ) actions := by
  have hfresh : (∀ initial, initial <+: actions →
      StaysFresh providers content (run (step providers content) .start initial)) ↔
        Meets (step providers content) Undisturbed .start actions :=
    forall_initial_iff (fun _ h => h.staysFresh) (fun _ action h => h.staysFresh_step_iff action)
      (fun _ _ h hguard => h.step hguard) inv_start
  rw [← hfresh]
  constructor
  · intro h initial hinitial
    exact (h initial hinitial).1
  · intro h initial hinitial
    exact ⟨h initial hinitial, LruCache.bounded _⟩

/-- A file is not changed again before it was invalidated. -/
def Announced (w : ServiceWorld κ) : ServiceAction κ → Prop
  | .change path => w.invalidated path = w.version path
  | _ => True

end Steps

namespace DisturbedInsertion

open ServiceWorld

/-- A provider that reports the content. -/
def echoing : DiagnosticsProvider String String where
  supports _ := true
  diagnostics path text := .ok [Diagnostic.new path .error 1 text]

def content (_ : String) (n : ℕ) : String := if n = 0 then "old" else "new"

/-- The file is written and invalidated while its old content is being reported, and then read
again. -/
def actions : List (ServiceAction String) :=
  [.start 0 "a.rs", .lookup 0, .provide 0, .change "a.rs", .invalidate "a.rs", .insert 0 0,
    .start 1 "a.rs", .lookup 1]

theorem not_fresh :
    ¬ ∀ actions : List (ServiceAction String),
      Meets (step [echoing] content) Announced .start actions →
        ∀ initial, initial <+: actions →
          Fresh [echoing] content (run (step [echoing] content) .start initial) := by
  intro hfresh
  have hmeets : Meets (step [echoing] content) Announced .start actions :=
    ⟨trivial, trivial, trivial, rfl, trivial, trivial, trivial, trivial, trivial⟩
  obtain ⟨n, hn, hsince, -, -⟩ := hfresh actions hmeets actions List.prefix_rfl 1
    ⟨"a.rs", 1, .returned (.ok [Diagnostic.new "a.rs" .error 1 "old"]) (some 0)⟩ _ _ rfl rfl rfl
  obtain rfl := Option.some.inj hn
  exact absurd hsince (by decide)

end DisturbedInsertion

end HeliosLite.Lsp
