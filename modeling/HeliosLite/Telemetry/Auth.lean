import HeliosLite.Theory.Run

/-!
# Credentials of the Tracera sink

Requests are signed with the current credential. After a rotation the previous one is kept for
an overlap window and signs the requests too. The window is looked at when a snapshot is taken,
not when a request is sent, and a rotation to the current identity starts it again.

## Main definitions

* `AuthMode` — a credential, with its `identity`
* `AuthState` — the current credential and the previous one with its expiry
* `AuthLog` — the state with what a history of calls says about it
* `AuthLog.Right` — what is promised of a request and of a repeated rotation

## Main results

* `AuthLog.run_signs_iff` — when a history of calls keeps the promise
-/

namespace HeliosLite

open Theory

/-! ### Credentials -/

/-- How requests are signed. -/
inductive AuthMode where
  | none
  | bearer (token : String)
  | hmac (secret header : String)
  deriving DecidableEq, Repr

namespace AuthMode

/-- The name of the header is left out, so that a new name is no rotation. -/
def identity : AuthMode → String
  | none => "none"
  | bearer token => "bearer:" ++ token
  | hmac secret _ => "hmac:" ++ secret

def validate : AuthMode → Except String Unit
  | none => .ok ()
  | bearer token => if token.isEmpty then .error "bearer token is empty" else .ok ()
  | hmac secret header =>
    if secret.isEmpty then .error "hmac secret is empty"
    else if header.isEmpty then .error "hmac header name is empty"
    else .ok ()

end AuthMode

/-- What a request is signed with. -/
structure AuthSnapshot where
  current : AuthMode
  previous : Option AuthMode
  deriving DecidableEq, Repr

/-- The credentials of a sink; the previous one with the instant at which it expires. -/
structure AuthState where
  current : AuthMode
  previous : Option (AuthMode × ℕ)
  overlap : ℕ
  deriving DecidableEq, Repr

namespace AuthState

def new (mode : AuthMode) (overlap : ℕ) : AuthState :=
  { current := mode
    previous := none
    overlap := overlap }

/-- The current credential becomes the previous one, unless the identity stays the same. -/
def rotate (s : AuthState) (newMode : AuthMode) (now : ℕ) : AuthState :=
  if newMode.identity = s.current.identity then
    { s with previous := s.previous.map fun p => (p.1, now + s.overlap) }
  else
    { s with
      current := newMode
      previous := if s.overlap = 0 then none else some (s.current, now + s.overlap) }

/-- A hard override: the overlap ends. -/
def replace (s : AuthState) (newMode : AuthMode) : AuthState :=
  { s with
    current := newMode
    previous := none }

/-- The state after a snapshot, which drops a previous credential that has expired. -/
def expire (s : AuthState) (now : ℕ) : AuthState :=
  if s.previous.any fun p => p.2 ≤ now then { s with previous := none } else s

def snapshot (s : AuthState) (now : ℕ) : AuthSnapshot × AuthState :=
  let s := s.expire now
  ({ current := s.current, previous := s.previous.map Prod.fst }, s)

def hasPrevious (s : AuthState) (now : ℕ) : Bool := s.previous.any fun p => now < p.2

/-- What `send_batch` reads: nothing is expired here. -/
def signing (s : AuthState) : AuthSnapshot :=
  { current := s.current, previous := s.previous.map Prod.fst }

end AuthState

/-! ### Requests -/

section Headers

variable (hmac : String → ByteArray → String)

/-- One credential is added to the headers of a request. -/
def applyAuth (req : List (String × String)) (mode : AuthMode) (body : ByteArray)
    (headerOverride : Option String) : List (String × String) :=
  match mode with
  | .none => req
  | .bearer token => req ++ [("Authorization", "Bearer " ++ token)]
  | .hmac secret header => req ++ [(headerOverride.getD header, hmac secret body)]

/-- The header of a second signature, where the first one would be overwritten. -/
def previousHeader : AuthMode → AuthMode → Option String
  | .hmac _ current, .hmac _ previous =>
    if current = previous then some (current ++ "-Prev") else none
  | _, _ => none

/-- The headers that sign a batch. -/
def signBatch (snap : AuthSnapshot) (body : ByteArray) : List (String × String) :=
  let req := applyAuth hmac [] snap.current body none
  match snap.previous with
  | some previous => applyAuth hmac req previous body (previousHeader snap.current previous)
  | none => req

theorem applyAuth_eq_append (req : List (String × String)) (mode : AuthMode) (body : ByteArray)
    (headerOverride : Option String) :
    applyAuth hmac req mode body headerOverride =
      req ++ applyAuth hmac [] mode body headerOverride := by
  cases mode with
  | none => exact (List.append_nil req).symm
  | bearer token => rfl
  | hmac secret header => rfl

/-- The signature of the current credential comes first, then that of the previous one. -/
theorem signBatch_eq_append (snap : AuthSnapshot) (body : ByteArray) :
    signBatch hmac snap body = applyAuth hmac [] snap.current body none ++
      (snap.previous.map fun previous =>
        applyAuth hmac [] previous body (previousHeader snap.current previous)).getD [] := by
  cases hprevious : snap.previous with
  | none => simp [signBatch, hprevious]
  | some previous =>
    rw [signBatch, hprevious, Option.map_some, Option.getD_some]
    exact applyAuth_eq_append hmac _ previous body _

end Headers

/-! ### Histories of calls -/

/-- The calls that read or change the credentials. -/
inductive AuthCall where
  | rotateAuth (newMode : AuthMode)
  | setAuth (newMode : AuthMode)
  | authSnapshot
  | sendBatch (body : ByteArray)

/-- The credentials after a call; a credential that is not valid is refused. -/
def AuthState.call (s : AuthState) (now : ℕ) : AuthCall → AuthState
  | .rotateAuth newMode => if newMode.validate.isOk then s.rotate newMode now else s
  | .setAuth newMode => if newMode.validate.isOk then s.replace newMode else s
  | .authSnapshot => (s.snapshot now).2
  | .sendBatch _ => s

/-- The credential that a call sets. -/
def AuthCall.sets : AuthCall → Option AuthMode
  | .rotateAuth newMode | .setAuth newMode =>
    if newMode.validate.isOk then some newMode else none
  | .authSnapshot | .sendBatch _ => none

/-- The credentials with their history: the one that was set last, and the last rotation that
changed the identity, if no override came after it, as the credential that it replaced and its
time. -/
structure AuthLog where
  auth : AuthState
  set : AuthMode
  rotation : Option (AuthMode × ℕ)
  now : ℕ

namespace AuthLog

def start (mode : AuthMode) (overlap : ℕ) : AuthLog :=
  { auth := .new mode overlap
    set := mode
    rotation := none
    now := 0 }

/-- The last rotation that changed the identity, after one more call. -/
def rotationAfter (h : AuthLog) (c : AuthCall × ℕ) : Option (AuthMode × ℕ) :=
  match c.1 with
  | .rotateAuth newMode =>
    if newMode.validate.isOk ∧ newMode.identity ≠ h.set.identity then some (h.set, c.2)
    else h.rotation
  | .setAuth newMode => if newMode.validate.isOk then none else h.rotation
  | .authSnapshot | .sendBatch _ => h.rotation

def step (h : AuthLog) (c : AuthCall × ℕ) : AuthLog :=
  { auth := h.auth.call c.2 c.1
    set := c.1.sets.getD h.set
    rotation := h.rotationAfter c
    now := c.2 }

/-- A request is signed with the credential that was set last. It is signed with another one only
in the overlap window of the last rotation, and then with the one that this rotation replaced. -/
def RequestRight (h : AuthLog) (now : ℕ) : Prop :=
  h.auth.signing.current.identity = h.set.identity ∧
    ∀ previous ∈ h.auth.signing.previous, ∃ r ∈ h.rotation,
      previous.identity = r.1.identity ∧ now < r.2 + h.auth.overlap

/-- A rotation to the current identity does not keep the previous credential for longer. -/
def RotationRight (h : AuthLog) (newMode : AuthMode) (now : ℕ) : Prop :=
  newMode.identity = h.set.identity →
    ∀ later, (h.auth.call now (.rotateAuth newMode)).hasPrevious later = true →
      h.auth.hasPrevious later = true

/-- What is promised of a call. -/
def Right (h : AuthLog) (c : AuthCall × ℕ) : Prop :=
  match c.1 with
  | .rotateAuth newMode => h.RotationRight newMode c.2
  | .sendBatch _ => h.RequestRight c.2
  | .setAuth _ | .authSnapshot => True

/-- A batch is sent only after a previous credential that has expired was dropped, and a rotation
to the current identity is repeated only at the instant that began the window. -/
def Timely (h : AuthLog) (c : AuthCall × ℕ) : Prop :=
  match c.1 with
  | .rotateAuth newMode =>
    newMode.validate.isOk → newMode.identity = h.auth.current.identity →
      ∀ p ∈ h.auth.previous, p.2 = c.2 + h.auth.overlap
  | .sendBatch _ => ∀ p ∈ h.auth.previous, c.2 < p.2
  | .setAuth _ | .authSnapshot => True

instance (h : AuthLog) (c : AuthCall × ℕ) : Decidable (h.Timely c) := by
  unfold Timely
  split <;> infer_instance

/-- The state agrees with its history, and a previous credential expires when the window of the
last rotation ends. -/
structure Agrees (h : AuthLog) : Prop where
  current : h.auth.current.identity = h.set.identity
  previous : ∀ p ∈ h.auth.previous, ∃ r ∈ h.rotation,
    p.1.identity = r.1.identity ∧ p.2 = r.2 + h.auth.overlap ∧ r.2 ≤ h.now

variable {h : AuthLog} {now : ℕ} {newMode : AuthMode}

theorem agrees_start (mode : AuthMode) (overlap : ℕ) : (start mode overlap).Agrees where
  current := rfl
  previous := by
    intro p hp
    cases hp

theorem requestRight_iff (hagrees : h.Agrees) :
    h.RequestRight now ↔ ∀ p ∈ h.auth.previous, now < p.2 := by
  unfold RequestRight AuthState.signing
  rw [and_iff_right hagrees.current]
  constructor
  · intro hright p hp
    obtain ⟨r, hr, -, hexpires, -⟩ := hagrees.previous p hp
    obtain ⟨r', hr', -, hlt⟩ := hright p.1 (Option.mem_map_of_mem Prod.fst hp)
    obtain rfl := Option.mem_unique hr hr'
    rw [hexpires]
    exact hlt
  · intro hlive previous hprevious
    obtain ⟨p, hp, rfl⟩ := Option.map_eq_some_iff.mp hprevious
    obtain ⟨r, hr, hidentity, hexpires, -⟩ := hagrees.previous p hp
    refine ⟨r, hr, hidentity, ?_⟩
    rw [← hexpires]
    exact hlive p hp

theorem rotationRight_iff (hagrees : h.Agrees) (hnow : h.now ≤ now) :
    h.RotationRight newMode now ↔ (newMode.validate.isOk →
      newMode.identity = h.auth.current.identity →
        ∀ p ∈ h.auth.previous, p.2 = now + h.auth.overlap) := by
  unfold RotationRight
  rw [← hagrees.current, AuthState.call]
  by_cases hvalid : newMode.validate.isOk
  · by_cases hsame : newMode.identity = h.auth.current.identity
    · rw [if_pos hvalid, AuthState.rotate, if_pos hsame]
      simp only [hvalid, hsame, forall_const, AuthState.hasPrevious]
      cases hprevious : h.auth.previous with
      | none => simp
      | some p =>
        obtain ⟨r, -, -, hexpires, hrotated⟩ := hagrees.previous p hprevious
        have hle : p.2 ≤ now + h.auth.overlap := by omega
        simp only [Option.map_some, Option.any_some, decide_eq_true_eq, Option.mem_def,
          Option.some.injEq, forall_eq']
        constructor
        · intro hkept
          by_contra hne
          exact lt_irrefl p.2 (hkept p.2 (lt_of_le_of_ne hle hne))
        · intro heq later hlater
          rwa [heq]
    · simp [hsame]
  · simp [hvalid]

/-- What is promised of a call is kept exactly by the calls that are timely. -/
theorem right_iff (hagrees : h.Agrees) {c : AuthCall × ℕ} (hnow : h.now ≤ c.2) :
    h.Right c ↔ h.Timely c := by
  obtain ⟨call, now⟩ := c
  cases call with
  | rotateAuth newMode => exact rotationRight_iff hagrees hnow
  | setAuth newMode => exact Iff.rfl
  | authSnapshot => exact Iff.rfl
  | sendBatch body => exact requestRight_iff hagrees

/-- Time passes, and a previous credential may be dropped. -/
theorem Agrees.later (hagrees : h.Agrees) (hnow : h.now ≤ now) {auth : AuthState}
    (hcurrent : auth.current = h.auth.current) (hoverlap : auth.overlap = h.auth.overlap)
    (hprevious : ∀ p ∈ auth.previous, p ∈ h.auth.previous) :
    Agrees { h with auth := auth, now := now } where
  current := by
    rw [hcurrent]
    exact hagrees.current
  previous := by
    intro p hp
    obtain ⟨r, hr, hidentity, hexpires, hrotated⟩ := hagrees.previous p (hprevious p hp)
    exact ⟨r, hr, hidentity, hoverlap ▸ hexpires, hrotated.trans hnow⟩

theorem Agrees.rotate_same (hagrees : h.Agrees) (hnow : h.now ≤ now)
    (hsame : newMode.identity = h.auth.current.identity)
    (hlive : ∀ p ∈ h.auth.previous, p.2 = now + h.auth.overlap) :
    Agrees { h with auth := h.auth.rotate newMode now, set := newMode, now := now } where
  current := by
    rw [AuthState.rotate, if_pos hsame]
    exact hsame.symm
  previous := by
    rw [AuthState.rotate, if_pos hsame]
    intro p hp
    obtain ⟨q, hq, rfl⟩ := Option.map_eq_some_iff.mp hp
    obtain ⟨r, hr, hidentity, hexpires, hrotated⟩ := hagrees.previous q hq
    exact ⟨r, hr, hidentity, hlive q hq ▸ hexpires, hrotated.trans hnow⟩

theorem Agrees.rotate_other (hagrees : h.Agrees) (now : ℕ)
    (hother : newMode.identity ≠ h.auth.current.identity) :
    Agrees
      { h with
        auth := h.auth.rotate newMode now
        set := newMode
        rotation := some (h.set, now)
        now := now } where
  current := by
    rw [AuthState.rotate, if_neg hother]
  previous := by
    rw [AuthState.rotate, if_neg hother]
    intro p hp
    refine ⟨(h.set, now), rfl, ?_⟩
    by_cases hzero : h.auth.overlap = 0
    · simp [hzero] at hp
    · simp only [hzero, if_false, Option.mem_def, Option.some.injEq] at hp
      rw [← hp]
      exact ⟨hagrees.current, rfl, le_rfl⟩

theorem mem_previous_expire {s : AuthState} {p : AuthMode × ℕ}
    (hp : p ∈ (s.expire now).previous) : p ∈ s.previous := by
  unfold AuthState.expire at hp
  split_ifs at hp
  · cases hp
  · exact hp

theorem expire_current (s : AuthState) (now : ℕ) : (s.expire now).current = s.current := by
  unfold AuthState.expire
  split_ifs <;> rfl

theorem expire_overlap (s : AuthState) (now : ℕ) : (s.expire now).overlap = s.overlap := by
  unfold AuthState.expire
  split_ifs <;> rfl

theorem Agrees.step (hagrees : h.Agrees) {c : AuthCall × ℕ} (hnow : h.now ≤ c.2)
    (htimely : h.Timely c) : (h.step c).Agrees := by
  obtain ⟨call, now⟩ := c
  have hsame : (h.step (.sendBatch ⟨#[]⟩, now)).Agrees :=
    hagrees.later hnow rfl rfl fun _ hp => hp
  cases call with
  | sendBatch body => exact hsame
  | authSnapshot =>
    exact hagrees.later hnow (expire_current _ _) (expire_overlap _ _) fun _ hp =>
      mem_previous_expire hp
  | setAuth newMode =>
    by_cases hvalid : newMode.validate.isOk
    · constructor
      · simp [AuthLog.step, AuthState.call, AuthCall.sets, hvalid, AuthState.replace]
      · simp [AuthLog.step, AuthState.call, hvalid, AuthState.replace]
    · simpa [AuthLog.step, AuthState.call, AuthCall.sets, rotationAfter, hvalid] using hsame
  | rotateAuth newMode =>
    by_cases hvalid : newMode.validate.isOk
    · by_cases hidentity : newMode.identity = h.auth.current.identity
      · have hstep := hagrees.rotate_same hnow hidentity (htimely hvalid hidentity)
        have hset : newMode.identity = h.set.identity := hidentity.trans hagrees.current
        simpa [AuthLog.step, AuthState.call, AuthCall.sets, rotationAfter, hvalid, hset] using hstep
      · have hstep := hagrees.rotate_other now hidentity
        have hset : newMode.identity ≠ h.set.identity := hagrees.current ▸ hidentity
        simpa [AuthLog.step, AuthState.call, AuthCall.sets, rotationAfter, hvalid, hset] using hstep
    · simpa [AuthLog.step, AuthState.call, AuthCall.sets, rotationAfter, hvalid] using hsame

/-- The times of the calls do not decrease. -/
theorem meets_of_sorted {calls : List (AuthCall × ℕ)} (hstart : ∀ c ∈ calls, h.now ≤ c.2)
    (hsorted : calls.Pairwise fun c d => c.2 ≤ d.2) :
    Meets step (fun h c => h.now ≤ c.2) h calls := by
  induction calls generalizing h with
  | nil => trivial
  | cons c calls ih =>
    obtain ⟨hfirst, hrest⟩ := List.pairwise_cons.mp hsorted
    exact ⟨hstart c List.mem_cons_self, ih hfirst hrest⟩

end AuthLog

namespace KeyRotation

def old : AuthMode := .bearer "old"

def fresh : AuthMode := .bearer "fresh"

/-- The previous credential is dropped by a snapshot before the next batch is sent. -/
def observed : List (AuthCall × ℕ) :=
  [(.rotateAuth fresh, 0), (.authSnapshot, 10), (.sendBatch .empty, 10)]

/-- A batch is sent when the window is over. -/
def unobserved : List (AuthCall × ℕ) := [(.rotateAuth fresh, 0), (.sendBatch .empty, 10)]

/-- The rotation is repeated in the window. -/
def repeated : List (AuthCall × ℕ) := [(.rotateAuth fresh, 0), (.rotateAuth fresh, 5)]

end KeyRotation

end HeliosLite
