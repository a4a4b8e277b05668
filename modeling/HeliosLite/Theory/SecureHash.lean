import Mathlib.Data.List.Forall2
import Mathlib.Data.List.GetD
import Mathlib.Data.Nat.Find
import Mathlib.Data.Nat.Prime.Basic

/-!
# SHA-256 and HMAC

The secure hash standard (FIPS 180-4) and keyed hashing (RFC 2104). A message of the hash is a list
of bits, the most significant bit of a byte first; it is padded, cut into blocks of 512 bits, and
the blocks change a hash value of eight words one after the other.

## Main definitions

* `bitsOf`, `bytesBits` — the bits of a word, and of bytes
* `wordAt`, `bytesOf` — the word and the bytes that bits make
* `pad` — the padded message
* `schedule` — the message schedule of a block
* `compress` — the hash value after a block
* `sha256`, `sha256Bytes` — the digests of bits, and of bytes
* `hmac` — keyed hashing with any hash of bytes

## Main results

* `roots_constants` — the constants are the roots of the first primes that the standard names
* `bytesOf_bytesBits` — bytes are read back from their bits
-/

namespace Theory

/-! ### Bits -/

/-- The bits of a word, the most significant first. -/
def bitsOf {n : ℕ} (w : BitVec n) : List Bool := (List.range n).map w.getMsbD

/-- The word that starts at a place of some bits. -/
def wordAt (n : ℕ) (bits : List Bool) (i : ℕ) : BitVec n :=
  (BitVec.ofBoolListBE ((bits.drop i).take n)).setWidth n

def bytesBits (bytes : List UInt8) : List Bool := bytes.flatMap fun b => bitsOf b.toBitVec

def bytesOf (bits : List Bool) : List UInt8 :=
  (List.range (bits.length / 8)).map fun i => ⟨wordAt 8 bits (8 * i)⟩

section Bits

variable {n : ℕ}

@[simp] theorem length_bitsOf (w : BitVec n) : (bitsOf w).length = n := by
  rw [bitsOf, List.length_map, List.length_range]

@[simp] theorem getD_bitsOf (w : BitVec n) (k : ℕ) : (bitsOf w).getD k false = w.getMsbD k := by
  rw [bitsOf, List.getD_eq_getElem?_getD, List.getElem?_map]
  by_cases hk : k < n
  · rw [List.getElem?_range hk]
    rfl
  · rw [List.getElem?_eq_none (by rw [List.length_range]; omega),
      BitVec.getMsbD_of_ge _ _ (by omega)]
    rfl

theorem getMsbD_setWidth_of_eq {m : ℕ} (w : BitVec m) (h : m = n) (k : ℕ) :
    (w.setWidth n).getMsbD k = w.getMsbD k := by
  subst h
  rw [BitVec.setWidth_eq]

theorem getMsbD_wordAt {bits : List Bool} {i k : ℕ} (h : i + n ≤ bits.length) (hk : k < n) :
    (wordAt n bits i).getMsbD k = bits.getD (i + k) false := by
  have hlength : ((bits.drop i).take n).length = n := by
    rw [List.length_take, List.length_drop]
    omega
  rw [wordAt, getMsbD_setWidth_of_eq _ hlength, BitVec.getMsbD_ofBoolListBE,
    List.getD_eq_getElem?_getD, List.getElem?_take_of_lt hk, List.getElem?_drop,
    List.getD_eq_getElem?_getD]

@[simp] theorem bytesBits_nil : bytesBits [] = [] := rfl

@[simp] theorem bytesBits_cons (b : UInt8) (bytes : List UInt8) :
    bytesBits (b :: bytes) = bitsOf b.toBitVec ++ bytesBits bytes := rfl

@[simp] theorem bytesBits_append (bytes bytes' : List UInt8) :
    bytesBits (bytes ++ bytes') = bytesBits bytes ++ bytesBits bytes' := List.flatMap_append

@[simp] theorem length_bytesBits (bytes : List UInt8) :
    (bytesBits bytes).length = 8 * bytes.length := by
  induction bytes with
  | nil => rfl
  | cons b bytes ih =>
    rw [bytesBits_cons, List.length_append, length_bitsOf, ih, List.length_cons]
    omega

/-- A bit of a byte. -/
theorem getD_bytesBits (bytes : List UInt8) (i : ℕ) {k : ℕ} (hk : k < 8) :
    (bytesBits bytes).getD (8 * i + k) false = (bytes.getD i 0).toBitVec.getMsbD k := by
  induction bytes generalizing i with
  | nil =>
    have hzero : ∀ m : Fin 8, (0 : UInt8).toBitVec.getMsbD m = false := by decide
    exact (hzero ⟨k, hk⟩).symm
  | cons b bytes ih =>
    rw [bytesBits_cons]
    cases i with
    | zero =>
      rw [List.getD_append _ _ _ _ (by rw [length_bitsOf]; omega), Nat.mul_zero, Nat.zero_add,
        getD_bitsOf]
      rfl
    | succ i =>
      rw [List.getD_append_right _ _ _ _ (by rw [length_bitsOf]; omega), length_bitsOf]
      have hindex : 8 * (i + 1) + k - 8 = 8 * i + k := by omega
      rw [hindex, ih]
      rfl

/-- Bytes are read back from their bits. -/
theorem bytesOf_bytesBits (bytes : List UInt8) : bytesOf (bytesBits bytes) = bytes := by
  apply List.ext_getElem
  · rw [bytesOf, List.length_map, List.length_range, length_bytesBits]
    omega
  · intro i hi hi'
    simp only [bytesOf, List.getElem_map, List.getElem_range]
    apply UInt8.toBitVec_inj.mp
    apply BitVec.eq_of_getMsbD_eq
    intro k hk
    rw [getMsbD_wordAt (by rw [length_bytesBits]; omega) hk, getD_bytesBits bytes i hk,
      List.getD_eq_getElem _ _ hi']

end Bits

namespace Sha256

abbrev Word := BitVec 32

/-! ### Functions -/

def ch (x y z : Word) : Word := (x &&& y) ^^^ (~~~x &&& z)

def maj (x y z : Word) : Word := (x &&& y) ^^^ (x &&& z) ^^^ (y &&& z)

def bigSigma0 (x : Word) : Word := x.rotateRight 2 ^^^ x.rotateRight 13 ^^^ x.rotateRight 22

def bigSigma1 (x : Word) : Word := x.rotateRight 6 ^^^ x.rotateRight 11 ^^^ x.rotateRight 25

def smallSigma0 (x : Word) : Word := x.rotateRight 7 ^^^ x.rotateRight 18 ^^^ (x >>> 3)

def smallSigma1 (x : Word) : Word := x.rotateRight 17 ^^^ x.rotateRight 19 ^^^ (x >>> 10)

/-! ### Constants -/

/-- The constants of the rounds. -/
def constants : List Word :=
  [0x428a2f98, 0x71374491, 0xb5c0fbcf, 0xe9b5dba5, 0x3956c25b, 0x59f111f1, 0x923f82a4, 0xab1c5ed5,
   0xd807aa98, 0x12835b01, 0x243185be, 0x550c7dc3, 0x72be5d74, 0x80deb1fe, 0x9bdc06a7, 0xc19bf174,
   0xe49b69c1, 0xefbe4786, 0x0fc19dc6, 0x240ca1cc, 0x2de92c6f, 0x4a7484aa, 0x5cb0a9dc, 0x76f988da,
   0x983e5152, 0xa831c66d, 0xb00327c8, 0xbf597fc7, 0xc6e00bf3, 0xd5a79147, 0x06ca6351, 0x14292967,
   0x27b70a85, 0x2e1b2138, 0x4d2c6dfc, 0x53380d13, 0x650a7354, 0x766a0abb, 0x81c2c92e, 0x92722c85,
   0xa2bfe8a1, 0xa81a664b, 0xc24b8b70, 0xc76c51a3, 0xd192e819, 0xd6990624, 0xf40e3585, 0x106aa070,
   0x19a4c116, 0x1e376c08, 0x2748774c, 0x34b0bcb5, 0x391c0cb3, 0x4ed8aa4a, 0x5b9cca4f, 0x682e6ff3,
   0x748f82ee, 0x78a5636f, 0x84c87814, 0x8cc70208, 0x90befffa, 0xa4506ceb, 0xbef9a3f7, 0xc67178f2]

/-- The words of a hash value, or the working variables. -/
@[ext]
structure Vars where
  a : Word
  b : Word
  c : Word
  d : Word
  e : Word
  f : Word
  g : Word
  h : Word
  deriving DecidableEq, Repr

def Vars.words (v : Vars) : List Word := [v.a, v.b, v.c, v.d, v.e, v.f, v.g, v.h]

/-- The initial hash value. -/
def initial : Vars where
  a := 0x6a09e667
  b := 0xbb67ae85
  c := 0x3c6ef372
  d := 0xa54ff53a
  e := 0x510e527f
  f := 0x9b05688c
  g := 0x1f83d9ab
  h := 0x5be0cd19

/-- The first 32 bits of the fractional part of a root. -/
def IsRootFraction (degree radicand : ℕ) (w : Word) : Prop :=
  ∃ n ≤ radicand, (n * 2 ^ 32 + w.toNat) ^ degree ≤ radicand * 2 ^ (32 * degree) ∧
    radicand * 2 ^ (32 * degree) < (n * 2 ^ 32 + w.toNat + 1) ^ degree

instance (degree radicand : ℕ) (w : Word) : Decidable (IsRootFraction degree radicand w) :=
  inferInstanceAs (Decidable (∃ n ≤ radicand, _))

/-- A number below the square of 18 is prime if it is its only factor below 18. -/
theorem prime_iff_of_lt {p : ℕ} (hp : p < 18 * 18) :
    p.Prime ↔ 2 ≤ p ∧ ∀ m < 18, 2 ≤ m → m ∣ p → m = p := by
  constructor
  · intro hprime
    refine ⟨hprime.two_le, fun m _ hm hdvd => ?_⟩
    exact ((Nat.dvd_prime hprime).mp hdvd).resolve_left (by omega)
  · rintro ⟨htwo, hfactors⟩
    by_contra hnot
    have hsq := Nat.minFac_sq_le_self (by omega) hnot
    have hlt : p.minFac < 18 := by
      by_contra hge
      have hpow := Nat.pow_le_pow_left (not_lt.mp hge) 2
      omega
    have hfac := @Nat.minFac_prime p (by omega)
    exact hnot (hfactors _ hlt hfac.two_le p.minFac_dvd ▸ hfac)

/-- The constants are cube roots of the first 64 primes, the words of the initial hash value are
square roots of the first eight. -/
theorem roots_constants :
    List.Forall₂ (IsRootFraction 3) ((List.range 312).filter Nat.Prime) constants ∧
      List.Forall₂ (IsRootFraction 2) ((List.range 20).filter Nat.Prime) initial.words := by
  have hprimes : (List.range 312).filter Nat.Prime =
      (List.range 312).filter fun p => 2 ≤ p ∧ ∀ m < 18, 2 ≤ m → m ∣ p → m = p := by
    refine List.filter_congr fun p hp => ?_
    have hlt : p < 18 * 18 := (List.mem_range.mp hp).trans (by decide)
    simp only [prime_iff_of_lt hlt]
  rw [hprimes]
  decide +kernel

/-! ### The padded message -/

theorem exists_padding (length : ℕ) : ∃ k, (length + 1 + k) % 512 = 448 :=
  ⟨(448 + 511 * (length + 1)) % 512, by omega⟩

/-- The number of zeros: the least one that leaves 64 bits of a block. -/
def zeros (length : ℕ) : ℕ := Nat.find (exists_padding length)

/-- A one, zeros, and the length of the message as a number of 64 bits. -/
def pad (message : List Bool) : List Bool :=
  message ++ true :: (List.replicate (zeros message.length) false ++
    bitsOf (BitVec.ofNat 64 message.length))

/-- A word of a block. -/
def blockWord (bits : List Bool) (block t : ℕ) : Word :=
  wordAt 32 bits (512 * block + 32 * t)

/-! ### Hashing -/

/-- The message schedule of a block. -/
def schedule (word : ℕ → Word) (t : ℕ) : Word :=
  if t < 16 then word t
  else
    smallSigma1 (schedule word (t - 2)) + schedule word (t - 7) +
      smallSigma0 (schedule word (t - 15)) + schedule word (t - 16)

/-- One round, with its constant and its word of the schedule. -/
def round (k w : Word) (v : Vars) : Vars :=
  let t₁ := v.h + bigSigma1 v.e + ch v.e v.f v.g + k + w
  let t₂ := bigSigma0 v.a + maj v.a v.b v.c
  { a := t₁ + t₂
    b := v.a
    c := v.b
    d := v.c
    e := v.d + t₁
    f := v.e
    g := v.f
    h := v.g }

/-- The working variables after some rounds. -/
def rounds (word : ℕ → Word) (v : Vars) : ℕ → Vars
  | 0 => v
  | t + 1 => round (constants.getD t 0) (schedule word t) (rounds word v t)

def Vars.add (v v' : Vars) : Vars where
  a := v.a + v'.a
  b := v.b + v'.b
  c := v.c + v'.c
  d := v.d + v'.d
  e := v.e + v'.e
  f := v.f + v'.f
  g := v.g + v'.g
  h := v.h + v'.h

/-- The hash value after a block. -/
def compress (word : ℕ → Word) (v : Vars) : Vars := v.add (rounds word v 64)

/-- The hash value after some blocks. -/
def hashValue (bits : List Bool) : ℕ → Vars
  | 0 => initial
  | i + 1 => compress (blockWord bits i) (hashValue bits i)

end Sha256

/-- The digest of a message. -/
def sha256 (message : List Bool) : List Bool :=
  (Sha256.hashValue (Sha256.pad message) ((Sha256.pad message).length / 512)).words.flatMap bitsOf

def sha256Bytes (message : List UInt8) : List UInt8 := bytesOf (sha256 (bytesBits message))

/-- Keyed hashing with a hash of bytes that cuts its message into blocks of so many bytes. -/
def hmac (hash : List UInt8 → List UInt8) (blockSize : ℕ) (key text : List UInt8) : List UInt8 :=
  let key := if blockSize < key.length then hash key else key
  let key := key ++ List.replicate (blockSize - key.length) 0
  hash (key.map (· ^^^ 0x5c) ++ hash (key.map (· ^^^ 0x36) ++ text))

end Theory
