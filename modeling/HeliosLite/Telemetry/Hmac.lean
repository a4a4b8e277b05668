import HeliosLite.Theory.SecureHash

/-!
# The signature of a batch

The sink signs a batch with an HMAC-SHA256 of its own, which works on bytes and on arrays of 32-bit
words that are changed in place.

## Main definitions

* `Signature.sha256`, `Signature.hmacSha256Hex` — the functions of the sink
* `bytesBits` — the bits of a message

## Main results

* `Signature.hmacSha256Hex_eq` — the signature is that of the standards, for every key and message
-/

namespace HeliosLite.Signature

open Theory

/-! ### The functions of the sink -/

abbrev U32 := BitVec 32

def K : List U32 :=
  [0x428a2f98, 0x71374491, 0xb5c0fbcf, 0xe9b5dba5, 0x3956c25b, 0x59f111f1, 0x923f82a4,
   0xab1c5ed5, 0xd807aa98, 0x12835b01, 0x243185be, 0x550c7dc3, 0x72be5d74, 0x80deb1fe,
   0x9bdc06a7, 0xc19bf174, 0xe49b69c1, 0xefbe4786, 0x0fc19dc6, 0x240ca1cc, 0x2de92c6f,
   0x4a7484aa, 0x5cb0a9dc, 0x76f988da, 0x983e5152, 0xa831c66d, 0xb00327c8, 0xbf597fc7,
   0xc6e00bf3, 0xd5a79147, 0x06ca6351, 0x14292967, 0x27b70a85, 0x2e1b2138, 0x4d2c6dfc,
   0x53380d13, 0x650a7354, 0x766a0abb, 0x81c2c92e, 0x92722c85, 0xa2bfe8a1, 0xa81a664b,
   0xc24b8b70, 0xc76c51a3, 0xd192e819, 0xd6990624, 0xf40e3585, 0x106aa070, 0x19a4c116,
   0x1e376c08, 0x2748774c, 0x34b0bcb5, 0x391c0cb3, 0x4ed8aa4a, 0x5b9cca4f, 0x682e6ff3,
   0x748f82ee, 0x78a5636f, 0x84c87814, 0x8cc70208, 0x90befffa, 0xa4506ceb, 0xbef9a3f7,
   0xc67178f2]

/-- The array `h`, and the variables that start with its words. -/
structure Words where
  a : U32
  b : U32
  c : U32
  d : U32
  e : U32
  f : U32
  g : U32
  hh : U32
  deriving DecidableEq, Repr

def start : Words where
  a := 0x6a09e667
  b := 0xbb67ae85
  c := 0x3c6ef372
  d := 0xa54ff53a
  e := 0x510e527f
  f := 0x9b05688c
  g := 0x1f83d9ab
  hh := 0x5be0cd19

def fromBeBytes (b₀ b₁ b₂ b₃ : UInt8) : U32 :=
  b₀.toBitVec ++ b₁.toBitVec ++ b₂.toBitVec ++ b₃.toBitVec

/-- The bytes of a word, the most significant first. -/
def toBeBytes {n : ℕ} (w : BitVec n) : List UInt8 :=
  (List.range (n / 8)).map fun i => ⟨w.extractLsb' (n - 8 * (i + 1)) 8⟩

/-- The loop that adds zeros until 8 bytes of a block are left. -/
def fill (buf : List UInt8) : List UInt8 :=
  if buf.length % 64 ≠ 56 then fill (buf ++ [0]) else buf
termination_by (120 - buf.length % 64) % 64
decreasing_by
  rw [List.length_append, List.length_singleton]
  omega

/-- The message, a bit, zeros, and the length in bits. -/
def padded (msg : List UInt8) : List UInt8 :=
  let bitLen : BitVec 64 := BitVec.ofNat 64 msg.length * 8
  fill (msg ++ [0x80]) ++ toBeBytes bitLen

/-- `buf.chunks(n)`. -/
def chunks (n : ℕ) (buf : List UInt8) : List (List UInt8) :=
  (List.range ((buf.length + n - 1) / n)).map fun i => (buf.drop (n * i)).take n

/-- The loop over the words of the chunk. -/
def readWords (chunk : List UInt8) (w : List U32) : List U32 :=
  (List.range 16).foldl
    (fun w i => w.set i (fromBeBytes (chunk.getD (i * 4) 0) (chunk.getD (i * 4 + 1) 0)
      (chunk.getD (i * 4 + 2) 0) (chunk.getD (i * 4 + 3) 0))) w

/-- The word of the loop over the rest of the array. -/
def nextWord (w : List U32) (i : ℕ) : U32 :=
  let s0 := (w.getD (i - 15) 0).rotateRight 7 ^^^ (w.getD (i - 15) 0).rotateRight 18 ^^^
    (w.getD (i - 15) 0 >>> 3)
  let s1 := (w.getD (i - 2) 0).rotateRight 17 ^^^ (w.getD (i - 2) 0).rotateRight 19 ^^^
    (w.getD (i - 2) 0 >>> 10)
  w.getD (i - 16) 0 + s0 + w.getD (i - 7) 0 + s1

def extendWords (w : List U32) : List U32 :=
  (List.range' 16 48).foldl (fun w i => w.set i (nextWord w i)) w

def round (w : List U32) (v : Words) (i : ℕ) : Words :=
  let s1 := v.e.rotateRight 6 ^^^ v.e.rotateRight 11 ^^^ v.e.rotateRight 25
  let ch := (v.e &&& v.f) ^^^ (~~~v.e &&& v.g)
  let t1 := v.hh + s1 + ch + K.getD i 0 + w.getD i 0
  let s0 := v.a.rotateRight 2 ^^^ v.a.rotateRight 13 ^^^ v.a.rotateRight 22
  let mj := (v.a &&& v.b) ^^^ (v.a &&& v.c) ^^^ (v.b &&& v.c)
  let t2 := s0 + mj
  { hh := v.g
    g := v.f
    f := v.e
    e := v.d + t1
    d := v.c
    c := v.b
    b := v.a
    a := t1 + t2 }

/-- The array `h` after a chunk. -/
def process (h : Words) (chunk : List UInt8) : Words :=
  let w := extendWords (readWords chunk (List.replicate 64 0))
  let v := (List.range 64).foldl (round w) h
  { a := h.a + v.a
    b := h.b + v.b
    c := h.c + v.c
    d := h.d + v.d
    e := h.e + v.e
    f := h.f + v.f
    g := h.g + v.g
    hh := h.hh + v.hh }

def sha256 (msg : List UInt8) : List UInt8 :=
  let h := (chunks 64 (padded msg)).foldl process start
  [h.a, h.b, h.c, h.d, h.e, h.f, h.g, h.hh].flatMap toBeBytes

/-- The digits of a byte, `{b:02x}`. -/
def hexByte (b : UInt8) : List Char := [Nat.digitChar (b.toNat / 16), Nat.digitChar (b.toNat % 16)]

def hmacSha256Hex (key msg : List UInt8) : String :=
  let k := if 64 < key.length then sha256 key else key
  let k := if k.length < 64 then k ++ List.replicate (64 - k.length) 0 else k
  let ipad := List.zipWith (· ^^^ ·) (List.replicate 64 0x36) (k.take 64)
  let opad := List.zipWith (· ^^^ ·) (List.replicate 64 0x5c) (k.take 64)
  let inner := sha256 (ipad ++ msg)
  let outer := sha256 (opad ++ inner)
  String.ofList (outer.flatMap hexByte)

/-! ### Words and bytes -/

theorem getMsbD_fromBeBytes (b : ℕ → UInt8) {k : ℕ} (hk : k < 32) :
    (fromBeBytes (b 0) (b 1) (b 2) (b 3)).getMsbD k = (b (k / 8)).toBitVec.getMsbD (k % 8) := by
  unfold fromBeBytes
  simp only [BitVec.getMsbD_append]
  obtain h | h | h | h : k / 8 = 0 ∨ k / 8 = 1 ∨ k / 8 = 2 ∨ k / 8 = 3 := by omega
  · rw [h, if_neg (by omega), if_neg (by omega), if_neg (by omega)]
    congr 1
    omega
  · rw [h, if_neg (by omega), if_neg (by omega), if_pos (by omega)]
    congr 1
    omega
  · rw [h, if_neg (by omega), if_pos (by omega)]
    congr 1
    omega
  · rw [h, if_pos (by omega)]
    congr 1
    omega

/-- A word of a message is read from four of its bytes. -/
theorem wordAt_bytesBits {bytes : List UInt8} {i : ℕ} (h : i + 4 ≤ bytes.length) :
    wordAt 32 (bytesBits bytes) (8 * i) =
      fromBeBytes (bytes.getD i 0) (bytes.getD (i + 1) 0) (bytes.getD (i + 2) 0)
        (bytes.getD (i + 3) 0) := by
  apply BitVec.eq_of_getMsbD_eq
  intro k hk
  have hbytes := getMsbD_fromBeBytes (fun j => bytes.getD (i + j) 0) hk
  have hindex : 8 * i + k = 8 * (i + k / 8) + k % 8 := by omega
  rw [getMsbD_wordAt (by rw [length_bytesBits]; omega) hk, hindex,
    getD_bytesBits bytes _ (Nat.mod_lt _ (by decide))]
  exact hbytes.symm

/-- The bits of a word are those of its bytes. -/
theorem bytesBits_toBeBytes {m : ℕ} (w : BitVec (8 * m)) : bytesBits (toBeBytes w) = bitsOf w := by
  have hdiv : 8 * m / 8 = m := Nat.mul_div_cancel_left m (by decide)
  apply List.ext_getElem
  · rw [length_bytesBits, toBeBytes, List.length_map, List.length_range, length_bitsOf, hdiv]
  · intro k hk hk'
    rw [length_bitsOf] at hk'
    rw [← List.getD_eq_getElem _ false hk, ← List.getD_eq_getElem _ false, getD_bitsOf]
    have hindex : k = 8 * (k / 8) + k % 8 := by omega
    have hbyte : (toBeBytes w).getD (k / 8) 0 = ⟨w.extractLsb' (8 * m - 8 * (k / 8 + 1)) 8⟩ := by
      have hlt : k / 8 < (toBeBytes w).length := by
        rw [toBeBytes, List.length_map, List.length_range, hdiv]
        omega
      rw [List.getD_eq_getElem _ _ hlt]
      simp only [toBeBytes, List.getElem_map, List.getElem_range]
    conv_lhs => rw [hindex]
    rw [getD_bytesBits _ _ (Nat.mod_lt _ (by decide)), hbyte]
    have hplace : 8 * m - (8 * m - 8 * (k / 8 + 1) + 8 - k % 8) = k := by omega
    have hinside : 8 * m - 8 * (k / 8 + 1) + 8 - k % 8 ≤ 8 * m := by omega
    rw [BitVec.getMsbD_extractLsb', hplace, decide_eq_true hinside,
      decide_eq_true (Nat.mod_lt k (by decide)), Bool.true_and, Bool.true_and]

/-! ### The padded message -/

theorem fill_eq (buf : List UInt8) :
    fill buf = buf ++ List.replicate ((120 - buf.length % 64) % 64) 0 := by
  fun_induction fill buf with
  | case1 buf h ih =>
    obtain ⟨n, hn⟩ : ∃ n, (120 - buf.length % 64) % 64 = n + 1 := ⟨(120 - buf.length % 64) % 64 - 1,
      by omega⟩
    have hrest : (120 - (buf ++ [(0 : UInt8)]).length % 64) % 64 = n := by
      rw [List.length_append, List.length_singleton]
      omega
    rw [ih, hrest, hn, List.replicate_succ, List.append_assoc]
    rfl
  | case2 buf h =>
    have hnone : (120 - buf.length % 64) % 64 = 0 := by omega
    rw [hnone, List.replicate_zero, List.append_nil]

theorem zeros_eq (length : ℕ) :
    Sha256.zeros (8 * length) = 8 * ((120 - (length + 1) % 64) % 64) + 7 := by
  rw [Sha256.zeros, Nat.find_eq_iff]
  constructor
  · omega
  · intro k hk
    omega

theorem bytesBits_replicate_zero (n : ℕ) :
    bytesBits (List.replicate n 0) = List.replicate (8 * n) false := by
  have hbyte : bitsOf (0 : UInt8).toBitVec = List.replicate 8 false := by decide
  induction n with
  | zero => rfl
  | succ n ih =>
    rw [List.replicate_succ, bytesBits_cons, ih, hbyte, List.replicate_append_replicate]
    congr 1
    omega

/-- The padding of the sink is that of the standard. -/
theorem bytesBits_padded (msg : List UInt8) :
    bytesBits (padded msg) = Sha256.pad (bytesBits msg) := by
  have hbit : bitsOf (0x80 : UInt8).toBitVec = true :: List.replicate 7 false := by decide
  have hlength : (BitVec.ofNat 64 msg.length * 8 : BitVec 64) =
      BitVec.ofNat 64 (8 * msg.length) := by
    rw [Nat.mul_comm, BitVec.ofNat_mul]
    rfl
  rw [padded, fill_eq, Sha256.pad, length_bytesBits, zeros_eq]
  simp only [bytesBits_append, bytesBits_cons, bytesBits_nil, List.append_nil,
    bytesBits_replicate_zero, List.length_append, List.length_singleton, hbit, hlength]
  rw [@bytesBits_toBeBytes 8, Nat.add_comm _ 7, ← List.replicate_append_replicate]
  simp only [List.append_assoc, List.cons_append]

theorem length_padded_mod (msg : List UInt8) : (padded msg).length % 64 = 0 := by
  rw [padded, fill_eq, toBeBytes]
  simp only [List.length_append, List.length_replicate, List.length_map, List.length_range,
    List.length_singleton]
  omega

/-! ### The message schedule -/

theorem getD_foldl_set {α : Type} (d : α) (f : ℕ → α) (l : List α) (n t : ℕ) (hn : n ≤ l.length) :
    ((List.range n).foldl (fun l i => l.set i (f i)) l).length = l.length ∧
      ((List.range n).foldl (fun l i => l.set i (f i)) l).getD t d =
        if t < n then f t else l.getD t d := by
  induction n with
  | zero => exact ⟨rfl, rfl⟩
  | succ n ih =>
    obtain ⟨hlength, hget⟩ := ih (by omega)
    rw [List.range_succ, List.foldl_append, List.foldl_cons, List.foldl_nil]
    refine ⟨by rw [List.length_set, hlength], ?_⟩
    rw [List.getD_eq_getElem?_getD, List.getElem?_set]
    by_cases ht : n = t
    · rw [if_pos ht, if_pos (by omega), if_pos (by omega), ht]
      rfl
    · rw [if_neg ht, ← List.getD_eq_getElem?_getD, hget]
      congr 1
      rw [eq_iff_iff]
      omega

variable {word : ℕ → U32} {w : List U32}

theorem schedule_of_lt {t : ℕ} (ht : t < 16) : Sha256.schedule word t = word t := by
  rw [Sha256.schedule, if_pos ht]

theorem schedule_of_le {t : ℕ} (ht : 16 ≤ t) : Sha256.schedule word t =
    Sha256.smallSigma1 (Sha256.schedule word (t - 2)) + Sha256.schedule word (t - 7) +
      Sha256.smallSigma0 (Sha256.schedule word (t - 15)) + Sha256.schedule word (t - 16) := by
  rw [Sha256.schedule, if_neg (by omega)]

/-- The next word of the array is that of the schedule, if those before it are. -/
theorem nextWord_eq {t : ℕ} (ht : 16 ≤ t) (h : ∀ i < t, w.getD i 0 = Sha256.schedule word i) :
    nextWord w t = Sha256.schedule word t := by
  rw [schedule_of_le ht, nextWord, h (t - 15) (by omega), h (t - 2) (by omega),
    h (t - 16) (by omega), h (t - 7) (by omega)]
  unfold Sha256.smallSigma0 Sha256.smallSigma1
  ac_rfl

theorem getD_extendWords (hlength : w.length = 64) (hword : ∀ t < 16, w.getD t 0 = word t) :
    ∀ t < 64, (extendWords w).getD t 0 = Sha256.schedule word t := by
  have hloop : ∀ n ≤ 48,
      ((List.range' 16 n).foldl (fun w i => w.set i (nextWord w i)) w).length = 64 ∧
        ∀ t < 16 + n, ((List.range' 16 n).foldl (fun w i => w.set i (nextWord w i)) w).getD t 0 =
          Sha256.schedule word t := by
    intro n hn
    induction n with
    | zero => exact ⟨hlength, fun t ht => (hword t ht).trans (schedule_of_lt ht).symm⟩
    | succ n ih =>
      obtain ⟨hlen, hget⟩ := ih (by omega)
      rw [List.range'_concat, List.foldl_append, List.foldl_cons, List.foldl_nil, Nat.one_mul]
      refine ⟨by rw [List.length_set, hlen], fun t ht => ?_⟩
      rw [List.getD_eq_getElem?_getD, List.getElem?_set]
      by_cases hlast : 16 + n = t
      · rw [if_pos hlast, if_pos (by omega), Option.getD_some, nextWord_eq (by omega) hget, hlast]
      · rw [if_neg hlast, ← List.getD_eq_getElem?_getD]
        exact hget t (by omega)
  exact (hloop 48 le_rfl).2

/-- The words of a chunk. -/
def chunkWord (chunk : List UInt8) (t : ℕ) : U32 :=
  fromBeBytes (chunk.getD (t * 4) 0) (chunk.getD (t * 4 + 1) 0) (chunk.getD (t * 4 + 2) 0)
    (chunk.getD (t * 4 + 3) 0)

theorem getD_readWords (chunk : List UInt8) :
    (readWords chunk (List.replicate 64 0)).length = 64 ∧
      ∀ t < 16, (readWords chunk (List.replicate 64 0)).getD t 0 = chunkWord chunk t := by
  have hloop := getD_foldl_set 0 (chunkWord chunk) (List.replicate 64 0) 16
  refine ⟨(hloop 0 (by decide)).1, fun t ht => ?_⟩
  exact (hloop t (by decide)).2.trans (if_pos ht)

/-! ### Rounds -/

/-- The words as those of the standard. -/
def Words.vars (v : Words) : Sha256.Vars where
  a := v.a
  b := v.b
  c := v.c
  d := v.d
  e := v.e
  f := v.f
  g := v.g
  h := v.hh

theorem vars_rounds (hw : ∀ t < 64, w.getD t 0 = Sha256.schedule word t) (v : Words) {n : ℕ}
    (hn : n ≤ 64) : ((List.range n).foldl (round w) v).vars = Sha256.rounds word v.vars n := by
  induction n with
  | zero => rfl
  | succ n ih =>
    have hK : K.getD n 0 = Sha256.constants.getD n 0 := rfl
    rw [List.range_succ, List.foldl_append, List.foldl_cons, List.foldl_nil, Sha256.rounds,
      ← ih (by omega), ← hK, ← hw n (by omega)]
    rfl

/-- A chunk changes the words as its block changes the hash value. -/
theorem vars_process (h : Words) {chunk : List UInt8}
    (hword : ∀ t < 16, chunkWord chunk t = word t) :
    (process h chunk).vars = Sha256.compress word h.vars := by
  obtain ⟨hlength, hread⟩ := getD_readWords chunk
  have hschedule := getD_extendWords hlength fun t ht => (hread t ht).trans (hword t ht)
  have hrounds := vars_rounds hschedule h le_rfl
  rw [Sha256.compress, ← hrounds]
  rfl

/-! ### Chunks -/

theorem chunkWord_eq {buf : List UInt8} {i t : ℕ} (h : 64 * (i + 1) ≤ buf.length) (ht : t < 16) :
    chunkWord ((buf.drop (64 * i)).take 64) t = Sha256.blockWord (bytesBits buf) i t := by
  have hget : ∀ j < 64, ((buf.drop (64 * i)).take 64).getD j 0 = buf.getD (64 * i + j) 0 := by
    intro j hj
    rw [List.getD_eq_getElem?_getD, List.getElem?_take_of_lt hj, List.getElem?_drop,
      List.getD_eq_getElem?_getD]
  have hindex : 512 * i + 32 * t = 8 * (64 * i + t * 4) := by omega
  rw [Sha256.blockWord, hindex, wordAt_bytesBits (by omega), chunkWord, hget _ (by omega),
    hget _ (by omega), hget _ (by omega), hget _ (by omega)]
  rfl

theorem vars_foldl {buf : List UInt8} {n : ℕ} (h : 64 * n ≤ buf.length) :
    (((List.range n).map fun i => (buf.drop (64 * i)).take 64).foldl process start).vars =
      Sha256.hashValue (bytesBits buf) n := by
  induction n with
  | zero => rfl
  | succ n ih =>
    rw [List.range_succ, List.map_append, List.foldl_append, Sha256.hashValue, ← ih (by omega)]
    exact vars_process _ fun t ht => chunkWord_eq h ht

/-- The hash of the sink is SHA-256. -/
theorem sha256_eq (msg : List UInt8) : sha256 msg = sha256Bytes msg := by
  have hmod := length_padded_mod msg
  have hcount : ((padded msg).length + 64 - 1) / 64 = (padded msg).length / 64 := by omega
  have hblocks : (Sha256.pad (bytesBits msg)).length / 512 = (padded msg).length / 64 := by
    rw [← bytesBits_padded, length_bytesBits]
    omega
  have hvars := @vars_foldl (padded msg) ((padded msg).length / 64) (Nat.mul_div_le _ _)
  have hbits : bytesBits (sha256 msg) = Theory.sha256 (bytesBits msg) := by
    rw [Theory.sha256, hblocks, ← bytesBits_padded, ← hvars, sha256, chunks, hcount]
    simp only [Sha256.Vars.words, Words.vars, List.flatMap_cons, List.flatMap_nil,
      bytesBits_append, bytesBits_nil, @bytesBits_toBeBytes 4]
  rw [sha256Bytes, ← hbits, bytesOf_bytesBits]

/-! ### Keyed hashing -/

theorem length_sha256 (msg : List UInt8) : (sha256 msg).length = 32 := rfl

theorem zipWith_replicate (b : UInt8) (k : List UInt8) :
    List.zipWith (· ^^^ ·) (List.replicate k.length b) k = k.map (· ^^^ b) := by
  induction k with
  | nil => rfl
  | cons a k ih =>
    rw [List.length_cons, List.replicate_succ, List.zipWith_cons_cons, ih, List.map_cons,
      UInt8.xor_comm]

/-- The loop over the bytes of a key that fills a block. -/
theorem zipWith_take (b : UInt8) {k : List UInt8} (hk : k.length = 64) :
    List.zipWith (· ^^^ ·) (List.replicate 64 b) (k.take 64) = k.map (· ^^^ b) := by
  have hall := zipWith_replicate b k
  rw [hk] at hall
  rw [List.take_of_length_le hk.le, hall]

/-- The signature is the HMAC-SHA256 of the standards in lower-case hexadecimal digits. The length
in the padding counts modulo 2 ^ 64, which makes no difference for the messages of the standard. -/
theorem hmacSha256Hex_eq (key msg : List UInt8) :
    hmacSha256Hex key msg = String.ofList ((hmac sha256Bytes 64 key msg).flatMap hexByte) := by
  have hsha : sha256 = sha256Bytes := funext sha256_eq
  unfold hmacSha256Hex hmac
  rw [← hsha]
  dsimp only
  set k := if 64 < key.length then sha256 key else key with hkey
  have hshort : k.length ≤ 64 := by
    rw [hkey]
    split_ifs with h
    · exact (length_sha256 key).trans_le (by decide)
    · omega
  -- a key that fills the block gets no zeros
  have hfilled : (if k.length < 64 then k ++ List.replicate (64 - k.length) 0 else k) =
      k ++ List.replicate (64 - k.length) 0 := by
    split_ifs with h
    · rfl
    · have hnone : 64 - k.length = 0 := by omega
      rw [hnone, List.replicate_zero, List.append_nil]
  have hlength : (k ++ List.replicate (64 - k.length) (0 : UInt8)).length = 64 := by
    rw [List.length_append, List.length_replicate]
    omega
  rw [hfilled, zipWith_take _ hlength, zipWith_take _ hlength]

end HeliosLite.Signature
