import HeliosLite.Orchestration.ToolCalls
import HeliosLite.Theory.ByteIndex
import Mathlib

/-!
# Mentions in a prompt

A prompt can name files, agents, revisions and searches by `@`. The parser walks over the bytes of
the prompt and tries the forms one after the other; the prompt is rewritten by slicing it at the
spans of the mentions. The length of a mention of an agent is counted one byte too long.

## Main definitions

* `Mention`, `Mention.placeholder` — a mention and what replaces it
* `parseAtPosition` — the mention at an `@`
* `parse` — all mentions, and the rewritten prompt
* `Rewrites` — a text in which mentions are replaced by their placeholders
* `AgentFree` — the walk over the text meets no mention of an agent

## Main results

* `parseAtPosition_spec` — the span of a mention
* `agentFree_of_not_infix` — a text without `@agent:` is one
* `parse_right_iff` — which prompts are parsed and rewritten rightly
-/

namespace HeliosLite

open Theory

namespace Paste

inductive MentionKind where
  | path
  | directory
  | agent
  | git
  | web
  deriving DecidableEq, Repr

structure Mention where
  kind : MentionKind
  raw : List Char
  /-- The span in the input, in bytes. -/
  start : ℕ
  stop : ℕ
  resolved : Option (List Char)
  line : Option ℕ
  symbol : Option (List Char)
  deriving DecidableEq, Repr

structure MentionSet where
  mentions : List Mention
  rewritten : List Char
  deriving DecidableEq, Repr

/-! ### Placeholders -/

/-- The pattern is removed so many times, as often as it stands at the beginning. -/
def trimStart (pattern : List Char) : ℕ → List Char → List Char
  | 0, s => s
  | n + 1, s => if pattern.isPrefixOf s then trimStart pattern n (s.drop pattern.length) else s

def trimStartMatches (pattern : String) (s : List Char) : List Char :=
  trimStart pattern.toList s.length s

def Mention.placeholder (m : Mention) : List Char :=
  let inner := match m.kind with
    | .path => trimStartMatches "@" m.raw
    | .directory => trimStartMatches "@" m.raw
    | .agent => trimStartMatches "@agent:" m.raw
    | .git => trimStartMatches "@git:" m.raw
    | .web => trimStartMatches "@web:" m.raw
  "@[".toList ++ inner ++ "]".toList

/-! ### One mention -/

/-- The text up to the end of the word. -/
def word (s : List Char) : List Char := s.takeWhile fun c => !isWhitespace c

def isPathChar (c : Char) : Bool :=
  c.isAlphanum || c = '/' || c = '\\' || c = '_' || c = '-' || c = '.' || c = '~'

/-- A word after the name of a form, whose bytes are counted as those of the word and so many
more. -/
def wordMention (kind : MentionKind) (lead : String) (count : ℕ) (s : List Char) (absStart : ℕ) :
    Option (Mention × ℕ) :=
  (s.dropPrefix? lead.toList).bind fun rest =>
    let name := word rest
    if name = [] then none
    else some (⟨kind, lead.toList ++ name, absStart, absStart + count + byteLen name, some name,
      none, none⟩, count + byteLen name)

def agentMention : List Char → ℕ → Option (Mention × ℕ) := wordMention .agent "@agent:" 8

def gitMention : List Char → ℕ → Option (Mention × ℕ) := wordMention .git "@git:" 5

/-- What stands between a quote at the beginning and the next one. -/
def quoted : List Char → Option (List Char)
  | '"' :: r => if '"' ∈ r then some (r.takeWhile (· ≠ '"')) else none
  | _ => none

def quotedMention (s : List Char) (absStart : ℕ) : Option (Mention × ℕ) :=
  (s.dropPrefix? "@web:".toList).bind fun rest =>
    (quoted rest).map fun q =>
      let consumed := 6 + byteLen q + 1
      (⟨.web, "@web:\"".toList ++ q ++ ['"'], absStart, absStart + consumed, some q, none, none⟩,
        consumed)

/-- A quoted search is preferred. -/
def webMention (s : List Char) (absStart : ℕ) : Option (Mention × ℕ) :=
  quotedMention s absStart <|> wordMention .web "@web:" 5 s absStart

/-- The number of a line, if it is a `u32`. -/
def parseLine (digits : List Char) : Option ℕ :=
  let n := digits.foldl (fun n d => 10 * n + (d.toNat - '0'.toNat)) 0
  if n < 2 ^ 32 then some n else none

def isSymbolChar (c : Char) : Bool := c.isAlphanum || c = '_'

/-- The characters of a kind that follow a mark. -/
def following (mark : Char) (p : Char → Bool) : List Char → List Char
  | [] => []
  | c :: r => if c = mark then r.takeWhile p else []

/-- The position behind a mark and what follows it, if there is something. -/
def pastMark (mark : Char) (p : Char → Bool) (s : List Char) (n : ℕ) : ℕ :=
  if following mark p (s.drop n) = [] then n else n + 1 + (following mark p (s.drop n)).length

/-- The characters that are read are ASCII, so that the bytes are counted by their number. -/
def parsePathMention (s : List Char) (absStart : ℕ) : Option (Mention × ℕ) :=
  if ["@agent:", "@git:", "@web:"].any fun form => form.toList.isPrefixOf s then none
  else
    let rawPath := (s.drop 1).takeWhile isPathChar
    if rawPath = [] then none
    else
      let i := 1 + rawPath.length
      let digits := following ':' Char.isDigit (s.drop i)
      let j := pastMark ':' Char.isDigit s i
      let name := following '#' isSymbolChar (s.drop j)
      let stop := pastMark '#' isSymbolChar s j
      let isDir := rawPath.getLast? = some '/' ∨ rawPath.getLast? = some '\\'
      some (⟨if isDir then .directory else .path, '@' :: (s.take stop).drop 1, absStart,
        absStart + stop, none, if digits = [] then none else parseLine digits,
        if name = [] then none else some name⟩, stop)

/-- The forms are tried one after the other. -/
def parseAtPosition (s : List Char) (absStart : ℕ) : Option (Mention × ℕ) :=
  agentMention s absStart <|> gitMention s absStart <|> webMention s absStart <|>
    if "@/".toList.isPrefixOf s || "@~/".toList.isPrefixOf s || (s.drop 1).head?.any isPathChar then
      parsePathMention s absStart
    else none

/-! ### All mentions -/

/-- The walk over the bytes from a position on; a byte inside a character is no `@`. -/
def parseLoop (input : List Char) : ℕ → ℕ → List Mention
  | 0, _ => []
  | fuel + 1, i =>
    if i < byteLen input then
      match (splitAtByte input i).map Prod.snd with
      | some ('@' :: cs) =>
        match parseAtPosition ('@' :: cs) i with
        | some (m, consumed) => m :: parseLoop input fuel (i + consumed)
        | none => parseLoop input fuel (i + 1)
      | _ => parseLoop input fuel (i + 1)
    else []

/-- The input from a position on, with the placeholders of the mentions. -/
def rewriteFrom (input : List Char) : ℕ → List Mention → Option (List Char)
  | cursor, [] => slice input cursor (byteLen input)
  | cursor, m :: ms =>
    (slice input cursor m.start).bind fun text =>
      (rewriteFrom input m.stop ms).map fun rest => text ++ m.placeholder ++ rest

/-- The mentions and the rewritten input; nothing if a slice of the input panics. -/
def parse (input : String) : Option MentionSet :=
  let mentions := parseLoop input.toList (byteLen input.toList) 0
  (rewriteFrom input.toList 0 mentions).map fun rewritten => ⟨mentions, rewritten⟩

attribute [grind =] wordMention agentMention gitMention quoted quotedMention webMention parseLine
  following pastMark parsePathMention parseAtPosition parseLoop rewriteFrom

/-! ### The span of a mention -/

/-- A mention that was read at a position: its text stands there, and its span has the bytes of the
text, or one more for an agent. -/
structure ReadAt (s : List Char) (absStart : ℕ) (m : Mention) (consumed : ℕ) : Prop where
  nonempty : m.raw ≠ []
  raw : m.raw <+: s
  start : m.start = absStart
  stop : m.stop = absStart + consumed
  consumed : consumed = byteLen m.raw + if m.kind = .agent then 1 else 0

section Forms

variable {s cs : List Char} {absStart consumed : ℕ} {m : Mention}

theorem isPrefix_word (s : List Char) : word s <+: s := List.takeWhile_prefix _

theorem eq_append_of_dropPrefix? {s p rest : List Char} (h : s.dropPrefix? p = some rest) :
    s = p ++ rest := by
  obtain ⟨p', rfl, hp⟩ := List.dropPrefix?_eq_some_iff.mp h
  rw [eq_of_beq hp]

theorem readAt_wordMention {kind : MentionKind} {lead : String} {count : ℕ}
    (hlead : lead.toList ≠ [])
    (hcount : count = byteLen lead.toList + if kind = .agent then 1 else 0)
    (h : wordMention kind lead count s absStart = some (m, consumed)) :
    ReadAt s absStart m consumed ∧ m.kind = kind := by
  obtain ⟨rest, hrest, hname⟩ := Option.bind_eq_some_iff.mp h
  obtain rfl := eq_append_of_dropPrefix? hrest
  dsimp only at hname
  split_ifs at hname
  obtain ⟨rfl, rfl⟩ := Prod.mk.inj (Option.some.inj hname)
  refine ⟨⟨?_, (List.prefix_append_right_inj _).mpr (isPrefix_word rest), rfl, ?_, ?_⟩, rfl⟩
  · exact List.append_ne_nil_of_left_ne_nil hlead _
  · rw [Nat.add_assoc]
  · rw [hcount, byteLen_append]
    exact Nat.add_right_comm _ _ _

theorem quoted_prefix {rest q : List Char} (h : quoted rest = some q) :
    '"' :: (q ++ ['"']) <+: rest := by
  unfold quoted at h
  split at h
  · next r =>
    split_ifs at h with hmem
    obtain rfl := Option.some.inj h
    have hsplit := List.takeWhile_append_dropWhile (p := (· ≠ '"')) (l := r)
    have hhead := List.head?_dropWhile_not (· ≠ '"') r
    rw [List.cons_prefix_cons]
    refine ⟨rfl, ?_⟩
    match hrest : r.dropWhile (· ≠ '"') with
    | [] =>
      rw [hrest, List.append_nil] at hsplit
      rw [← hsplit] at hmem
      simpa using List.mem_takeWhile_imp hmem
    | c :: cs =>
      rw [hrest] at hhead
      have hc : c = '"' := by simpa using hhead
      rw [hrest, hc, List.append_cons] at hsplit
      exact ⟨cs, hsplit⟩
  · cases h

theorem readAt_quotedMention (h : quotedMention s absStart = some (m, consumed)) :
    ReadAt s absStart m consumed ∧ m.kind = .web := by
  obtain ⟨rest, hrest, hname⟩ := Option.bind_eq_some_iff.mp h
  obtain rfl := eq_append_of_dropPrefix? hrest
  obtain ⟨q, hquoted, hm⟩ := Option.map_eq_some_iff.mp hname
  obtain ⟨rfl, rfl⟩ := Prod.mk.inj hm
  have hopening : "@web:\"".toList = "@web:".toList ++ ['"'] := by decide
  have hlen : byteLen "@web:\"".toList = 6 := by decide
  have hclosing : byteLen ['"'] = 1 := by decide
  refine ⟨⟨by simp, ?_, rfl, rfl, ?_⟩, rfl⟩
  · rw [hopening, List.append_assoc, List.append_assoc, List.prefix_append_right_inj]
    exact quoted_prefix hquoted
  · rw [byteLen_append, byteLen_append, hlen, hclosing, if_neg (by simp)]

/-- The first characters are so many, and as many bytes. -/
def Counts (s : List Char) (n : ℕ) : Prop := n ≤ s.length ∧ byteLen (s.take n) = n

theorem Counts.add {n : ℕ} (h : Counts s n) {piece : List Char} (hpiece : piece <+: s.drop n)
    (hascii : byteLen piece = piece.length) : Counts s (n + piece.length) := by
  have hlen := hpiece.length_le
  rw [List.length_drop] at hlen
  refine ⟨?_, ?_⟩
  · have hle := h.1
    omega
  · rw [List.take_add, ← List.prefix_iff_eq_take.mp hpiece, byteLen_append, h.2, hascii]

theorem byteLen_eq_length {text : List Char} (h : ∀ c ∈ text, c.toNat < 128) :
    byteLen text = text.length := by
  induction text with
  | nil => rfl
  | cons c text ih =>
    obtain ⟨hc, htext⟩ := List.forall_mem_cons.mp h
    have hsize : c.utf8Size = 1 := Char.utf8Size_eq_one_iff.mpr (by
      rw [UInt32.le_iff_toNat_le]
      exact Nat.le_of_lt_succ hc)
    rw [byteLen_cons, hsize, ih htext, List.length_cons, Nat.add_comm]

theorem isAlphanum_lt {c : Char} (h : c.isAlphanum) : c.toNat < 128 := by
  simp only [Char.isAlphanum, Char.isAlpha, Char.isUpper, Char.isLower, Char.isDigit,
    Bool.or_eq_true, Bool.and_eq_true, decide_eq_true_eq, UInt32.le_iff_toNat_le] at h
  change c.val.toNat < 128
  grind

theorem isPathChar_lt {c : Char} (h : isPathChar c) : c.toNat < 128 := by
  simp only [isPathChar, Bool.or_eq_true, decide_eq_true_eq] at h
  rcases h with (((((h | rfl) | rfl) | rfl) | rfl) | rfl) | rfl
  · exact isAlphanum_lt h
  all_goals decide

/-- ASCII characters that follow a mark can be counted with it. -/
theorem Counts.pastMark {n : ℕ} (h : Counts s n) (mark : Char) (p : Char → Bool)
    (hmark : mark.toNat < 128) (hp : ∀ c, p c → c.toNat < 128) :
    Counts s (pastMark mark p s n) ∧ n ≤ Paste.pastMark mark p s n := by
  rw [Paste.pastMark]
  split_ifs with hempty
  · exact ⟨h, le_rfl⟩
  · refine ⟨?_, by omega⟩
    match hrest : s.drop n with
    | [] =>
      rw [hrest] at hempty
      exact absurd rfl hempty
    | c :: r =>
      rw [hrest, following] at hempty
      split_ifs at hempty with hc
      · rw [following, if_pos hc, Nat.add_right_comm, Nat.add_assoc, ← List.length_cons (a := c)]
        refine h.add ?_ (byteLen_eq_length ?_)
        · rw [hrest, List.cons_prefix_cons]
          exact ⟨rfl, List.takeWhile_prefix p⟩
        · rw [List.forall_mem_cons]
          exact ⟨hc ▸ hmark, fun d hd => hp d (List.mem_takeWhile_imp hd)⟩
      · exact absurd rfl hempty

theorem isDigit_lt (c : Char) (h : c.isDigit) : c.toNat < 128 :=
  isAlphanum_lt (by rw [Char.isAlphanum, h, Bool.or_true])

theorem isSymbolChar_lt (c : Char) (h : isSymbolChar c) : c.toNat < 128 := by
  simp only [isSymbolChar, Bool.or_eq_true, decide_eq_true_eq] at h
  rcases h with h | rfl
  · exact isAlphanum_lt h
  · decide

theorem readAt_parsePathMention
    (h : parsePathMention ('@' :: cs) absStart = some (m, consumed)) :
    ReadAt ('@' :: cs) absStart m consumed ∧ m.kind ≠ .agent := by
  rw [parsePathMention] at h
  split at h
  · cases h
  · dsimp only at h
    split at h
    · cases h
    · obtain ⟨rfl, rfl⟩ := Prod.mk.inj (Option.some.inj h)
      set rawPath := (('@' :: cs).drop 1).takeWhile isPathChar
      have hone : Counts ('@' :: cs) 1 := ⟨by simp, by rfl⟩
      have hbody : Counts ('@' :: cs) (1 + rawPath.length) :=
        hone.add (List.takeWhile_prefix _)
          (byteLen_eq_length fun c hc => isPathChar_lt (List.mem_takeWhile_imp hc))
      obtain ⟨hline, hj⟩ := hbody.pastMark ':' Char.isDigit (by decide) isDigit_lt
      obtain ⟨hsymbol, hstop⟩ := hline.pastMark '#' isSymbolChar (by decide) isSymbolChar_lt
      set j := pastMark ':' Char.isDigit ('@' :: cs) (1 + rawPath.length)
      set stop := pastMark '#' isSymbolChar ('@' :: cs) j
      obtain ⟨n, hn⟩ : ∃ n, stop = n + 1 := ⟨stop - 1, by omega⟩
      have hraw : '@' :: (('@' :: cs).take stop).drop 1 = ('@' :: cs).take stop := by
        rw [hn]
        rfl
      have hkind : ¬ (if rawPath.getLast? = some '/' ∨ rawPath.getLast? = some '\\' then
          MentionKind.directory else .path) = .agent := by
        split_ifs <;> simp
      refine ⟨⟨List.cons_ne_nil _ _, ?_, rfl, rfl, ?_⟩, hkind⟩
      · rw [hraw]
        exact List.take_prefix _ _
      · rw [hraw, if_neg hkind, Nat.add_zero]
        exact hsymbol.2.symm

theorem parseAtPosition_eq (s : List Char) (absStart : ℕ) :
    parseAtPosition s absStart = ((((agentMention s absStart).or (gitMention s absStart)).or
      (quotedMention s absStart)).or (wordMention .web "@web:" 5 s absStart)).or
        (if "@/".toList.isPrefixOf s || "@~/".toList.isPrefixOf s ||
            (s.drop 1).head?.any isPathChar then
          parsePathMention s absStart
        else none) := by
  simp only [parseAtPosition, webMention, Option.orElse_eq_orElse, Option.orElse_eq_or,
    Option.or_assoc]

/-- What is read at an `@` stands there, and is counted rightly unless it is an agent. -/
theorem parseAtPosition_spec
    (h : parseAtPosition ('@' :: cs) absStart = some (m, consumed)) :
    ReadAt ('@' :: cs) absStart m consumed := by
  rw [parseAtPosition_eq] at h
  simp only [Option.or_eq_some_iff] at h
  rcases h with ((((hagent | ⟨-, hgit⟩) | ⟨-, hquoted⟩) | ⟨-, hweb⟩) | ⟨-, hpath⟩)
  · exact (readAt_wordMention (by decide) (by decide) hagent).1
  · exact (readAt_wordMention (by decide) (by decide) hgit).1
  · exact (readAt_quotedMention hquoted).1
  · exact (readAt_wordMention (by decide) (by decide) hweb).1
  · split_ifs at hpath
    exact (readAt_parsePathMention hpath).1

/-- The mention at another position. -/
def moved (absStart : ℕ) (p : Mention × ℕ) : Mention × ℕ :=
  ({ p.1 with start := absStart, stop := absStart + p.2 }, p.2)

theorem wordMention_moved (kind : MentionKind) (lead : String) (count : ℕ) (s : List Char)
    (absStart other : ℕ) :
    wordMention kind lead count s other =
      (wordMention kind lead count s absStart).map (moved other) := by
  rw [wordMention, wordMention, Option.map_bind]
  congr 1
  funext rest
  dsimp only [Function.comp_apply]
  split_ifs
  · rfl
  · rw [Option.map_some, moved, Nat.add_assoc]

theorem quotedMention_moved (s : List Char) (absStart other : ℕ) :
    quotedMention s other = (quotedMention s absStart).map (moved other) := by
  rw [quotedMention, quotedMention, Option.map_bind]
  congr 1
  funext rest
  rw [Function.comp_apply, Option.map_map]
  rfl

theorem parsePathMention_moved (s : List Char) (absStart other : ℕ) :
    parsePathMention s other = (parsePathMention s absStart).map (moved other) := by
  rw [parsePathMention, parsePathMention]
  split
  · rfl
  · dsimp only
    split <;> rfl

/-- Where the text stands changes the span of the mention only. -/
theorem parseAtPosition_moved (s : List Char) (absStart other : ℕ) :
    parseAtPosition s other = (parseAtPosition s absStart).map (moved other) := by
  rw [parseAtPosition_eq, parseAtPosition_eq, agentMention, gitMention,
    wordMention_moved _ _ _ s absStart other, wordMention_moved _ _ _ s absStart other,
    wordMention_moved _ _ _ s absStart other, quotedMention_moved s absStart other,
    parsePathMention_moved s absStart other]
  simp only [Option.map_or]
  congr 1
  split_ifs <;> rfl

end Forms

/-! ### Rewritten texts -/

/-- A text from a position on, in which every mention stands at its span and is replaced by its
placeholder; all other text is unchanged. -/
inductive Rewrites : ℕ → List Char → List Mention → List Char → Prop
  | nil (pos : ℕ) (rest : List Char) : Rewrites pos rest [] rest
  | cons {pos : ℕ} {text rest out : List Char} {m : Mention} {ms : List Mention}
      (start : m.start = pos + byteLen text) (stop : m.stop = m.start + byteLen m.raw)
      (nonempty : m.raw ≠ []) (tail : Rewrites m.stop rest ms out) :
      Rewrites pos (text ++ m.raw ++ rest) (m :: ms) (text ++ m.placeholder ++ out)

/-- What a parser of mentions is to return. -/
structure Right (input : List Char) (set : MentionSet) : Prop where
  increasing : set.mentions.Pairwise fun m m' => m.stop ≤ m'.start
  nonempty : ∀ m ∈ set.mentions, m.start < m.stop
  raw : ∀ m ∈ set.mentions, slice input m.start m.stop = some m.raw
  rewritten : Rewrites 0 input set.mentions set.rewritten

section Rewrites

variable {front rest out : List Char} {pos : ℕ} {ms : List Mention}

theorem byteLen_pos {text : List Char} (h : text ≠ []) : 0 < byteLen text :=
  (List.length_pos_iff.mpr h).trans_le (length_le_byteLen text)

/-- A character before the text. -/
theorem Rewrites.char {c : Char} {cs : List Char} (h : Rewrites (pos + c.utf8Size) cs ms out) :
    Rewrites pos (c :: cs) ms (c :: out) := by
  cases h with
  | nil => exact .nil _ _
  | @cons _ text rest out m ms start stop nonempty tail =>
    refine @Rewrites.cons pos (c :: text) rest out m ms ?_ stop nonempty tail
    rw [start, byteLen_cons, Nat.add_assoc]

theorem Rewrites.spans (h : Rewrites pos rest ms out) :
    (∀ m ∈ ms, pos ≤ m.start ∧ m.start < m.stop) ∧
      ms.Pairwise fun m m' => m.stop ≤ m'.start := by
  induction h with
  | nil => exact ⟨by simp, List.Pairwise.nil⟩
  | @cons pos text rest out m ms start stop nonempty tail ih =>
    have hraw := byteLen_pos nonempty
    rw [List.forall_mem_cons, List.pairwise_cons]
    refine ⟨⟨⟨by omega, by omega⟩, fun m' hm' => ?_⟩, fun m' hm' => (ih.1 m' hm').1, ih.2⟩
    obtain ⟨hpos, hlt⟩ := ih.1 m' hm'
    exact ⟨by omega, hlt⟩

theorem Rewrites.raw (h : Rewrites pos rest ms out) {front : List Char}
    (hpos : pos = byteLen front) :
    ∀ m ∈ ms, slice (front ++ rest) m.start m.stop = some m.raw := by
  induction h generalizing front with
  | nil => simp
  | @cons pos text rest out m ms start stop nonempty tail ih =>
    have hstart : m.start = byteLen (front ++ text) := by rw [start, hpos, byteLen_append]
    have hstop : m.stop = byteLen (front ++ text ++ m.raw) := by
      rw [stop, hstart, byteLen_append _ m.raw]
    rw [List.forall_mem_cons]
    constructor
    · rw [slice_eq_some_iff]
      exact ⟨front ++ text, rest, by simp only [List.append_assoc], hstart.symm, stop.symm⟩
    · intro m' hm'
      have hslice := ih hstop m' hm'
      rwa [List.append_assoc, List.append_assoc, ← List.append_assoc text] at hslice

/-- The slices of the input give the rewritten text. -/
theorem Rewrites.rewriteFrom (h : Rewrites pos rest ms out) {front : List Char}
    (hpos : pos = byteLen front) : rewriteFrom (front ++ rest) pos ms = some out := by
  induction h generalizing front with
  | nil pos rest =>
    rw [Paste.rewriteFrom, hpos, byteLen_append, ← List.append_nil (front ++ rest), slice_append]
  | @cons pos text rest out m ms start stop nonempty tail ih =>
    have hstop : m.stop = byteLen (front ++ text ++ m.raw) := by
      rw [stop, start, hpos, byteLen_append, byteLen_append]
    have htail := ih hstop
    have hinput : front ++ (text ++ m.raw ++ rest) = front ++ text ++ m.raw ++ rest := by
      simp only [List.append_assoc]
    rw [hinput, Paste.rewriteFrom, htail, start, hpos, List.append_assoc (front ++ text),
      slice_append]
    rfl

end Rewrites

/-! ### The walk over the text -/

/-- The mention that begins a text. -/
def mentionAt (s : List Char) : Option Mention :=
  if s.head? = some '@' then (parseAtPosition s 0).map Prod.fst else none

/-- The text is a sequence of characters at which no mention begins and of mentions that are not
of agents. -/
inductive AgentFree : List Char → Prop
  | nil : AgentFree []
  | char {c : Char} {cs : List Char} (none : mentionAt (c :: cs) = none) (tail : AgentFree cs) :
      AgentFree (c :: cs)
  | mention {m : Mention} {rest : List Char} (some : mentionAt (m.raw ++ rest) = some m)
      (kind : m.kind ≠ .agent) (tail : AgentFree rest) : AgentFree (m.raw ++ rest)

section Walk

variable {front rest : List Char} {fuel : ℕ}

theorem parseLoop_of_le {input : List Char} {i : ℕ} (h : byteLen input ≤ i) :
    parseLoop input fuel i = [] := by
  cases fuel with
  | zero => rfl
  | succ fuel => rw [parseLoop, if_neg (Nat.not_lt.mpr h)]

/-- No slice begins inside a character. -/
theorem splitAtByte_inside {c : Char} {cs : List Char} {k : ℕ} (hpos : 0 < k)
    (hlt : k < c.utf8Size) : splitAtByte (front ++ c :: cs) (byteLen front + k) = none := by
  rw [Option.eq_none_iff_forall_ne_some]
  rintro ⟨f, b⟩ hsplit
  obtain ⟨htext, hlen⟩ := splitAtByte_eq_some_iff.mp hsplit
  have hf : f <+: front ++ c :: cs := ⟨b, htext.symm⟩
  rcases List.prefix_or_prefix_of_prefix hf (List.prefix_append front _) with ⟨t, rfl⟩ | ⟨t, rfl⟩
  · rw [byteLen_append] at hlen
    omega
  · rw [List.append_assoc, List.append_cancel_left_eq] at htext
    rw [byteLen_append] at hlen
    match t with
    | [] =>
      rw [byteLen_nil] at hlen
      omega
    | d :: t =>
      obtain ⟨rfl, -⟩ := List.cons.inj htext
      rw [byteLen_cons] at hlen
      omega

/-- The bytes inside a character are passed one by one. -/
theorem parseLoop_inside {c : Char} {cs : List Char} (n k : ℕ) (hpos : 0 < k)
    (hk : k + n = c.utf8Size) :
    parseLoop (front ++ c :: cs) (fuel + n) (byteLen front + k) =
      parseLoop (front ++ c :: cs) fuel (byteLen front + c.utf8Size) := by
  induction n generalizing k with
  | zero =>
    rw [← hk]
    rfl
  | succ n ih =>
    have hlt : byteLen front + k < byteLen (front ++ c :: cs) := by
      rw [byteLen_append, byteLen_cons]
      omega
    rw [← Nat.add_assoc fuel, parseLoop, if_pos hlt, splitAtByte_inside hpos (by omega)]
    exact ih (k + 1) (Nat.succ_pos k) (by omega)

/-- A character at which no mention begins is passed. -/
theorem parseLoop_char {c : Char} {cs : List Char} (h : mentionAt (c :: cs) = none) :
    parseLoop (front ++ c :: cs) (fuel + c.utf8Size) (byteLen front) =
      parseLoop (front ++ [c] ++ cs) fuel (byteLen (front ++ [c])) := by
  obtain ⟨n, hn⟩ := Nat.exists_eq_add_of_le c.utf8Size_pos
  have hlt : byteLen front < byteLen (front ++ c :: cs) := by
    rw [byteLen_append, byteLen_cons]
    omega
  have hrest : parseLoop (front ++ c :: cs) (fuel + n) (byteLen front + 1) =
      parseLoop (front ++ [c] ++ cs) fuel (byteLen (front ++ [c])) := by
    rw [parseLoop_inside n 1 Nat.one_pos hn.symm, byteLen_append, List.append_assoc,
      byteLen_cons, byteLen_nil, Nat.add_zero]
    rfl
  have hfuel : fuel + c.utf8Size = fuel + n + 1 := by omega
  rw [hfuel, parseLoop, if_pos hlt, splitAtByte_append, Option.map_some, ← hrest]
  by_cases hc : c = '@'
  · subst hc
    have hparse : parseAtPosition ('@' :: cs) (byteLen front) = none := by
      rw [mentionAt, if_pos List.head?_cons, Option.map_eq_none_iff] at h
      rw [parseAtPosition_moved _ 0, h, Option.map_none]
    simp only [hparse]
  · split
    · next cs' heq =>
      exact absurd (List.cons.inj (Option.some.inj heq)).1 hc
    · rfl

/-- A mention is read, and the walk goes on behind its span. -/
theorem parseLoop_mention {s : List Char} {m : Mention} (h : mentionAt s = some m) :
    ∃ consumed m', ReadAt s (byteLen front) m' consumed ∧ m'.raw = m.raw ∧ m'.kind = m.kind ∧
      parseLoop (front ++ s) (fuel + 1) (byteLen front) =
        m' :: parseLoop (front ++ s) fuel (byteLen front + consumed) := by
  rw [mentionAt] at h
  split_ifs at h with hhead
  obtain ⟨cs, rfl⟩ : ∃ cs, s = '@' :: cs := List.head?_eq_some_iff.mp hhead
  obtain ⟨⟨m, consumed⟩, hparse, rfl⟩ := Option.map_eq_some_iff.mp h
  have hmoved : parseAtPosition ('@' :: cs) (byteLen front) =
      some (moved (byteLen front) (m, consumed)) := by
    rw [parseAtPosition_moved _ 0, hparse, Option.map_some]
  have hlt : byteLen front < byteLen (front ++ '@' :: cs) := by
    rw [byteLen_append, byteLen_cons]
    have hsize := Char.utf8Size_pos '@'
    omega
  refine ⟨consumed, (moved (byteLen front) (m, consumed)).1, parseAtPosition_spec hmoved, rfl, rfl,
    ?_⟩
  rw [parseLoop, if_pos hlt, splitAtByte_append, Option.map_some]
  simp only [hmoved, moved]

theorem mentionAt_ne_nil {s : List Char} {m : Mention} (h : mentionAt s = some m) : s ≠ [] := by
  rintro rfl
  cases h

/-- The walk behind a mention that is not of an agent. -/
theorem parseLoop_behind {m : Mention} (h : mentionAt (m.raw ++ rest) = some m)
    (hkind : m.kind ≠ .agent) :
    ∃ m', m.raw = m'.raw ∧ m'.raw ≠ [] ∧ m'.kind = m.kind ∧ m'.start = byteLen front ∧
      m'.stop = byteLen (front ++ m.raw) ∧
      parseLoop (front ++ (m.raw ++ rest)) (fuel + 1) (byteLen front) =
        m' :: parseLoop (front ++ m.raw ++ rest) fuel (byteLen (front ++ m.raw)) := by
  obtain ⟨consumed, m', hread, hraw, hkind', hloop⟩ := @parseLoop_mention front fuel _ m h
  have hconsumed : consumed = byteLen m.raw := by
    rw [hread.consumed, hraw, hkind', if_neg hkind, Nat.add_zero]
  refine ⟨m', hraw.symm, hread.nonempty, hkind', hread.start, ?_, ?_⟩
  · rw [hread.stop, hconsumed, byteLen_append]
  · rw [hloop, hconsumed, byteLen_append, List.append_assoc]

/-- Without agents the walk reads mentions that can be replaced. -/
theorem rewrites_parseLoop (h : AgentFree rest) (front : List Char) (fuel : ℕ)
    (hfuel : byteLen rest ≤ fuel) :
    ∃ out, Rewrites (byteLen front) rest (parseLoop (front ++ rest) fuel (byteLen front)) out := by
  induction h generalizing front fuel with
  | nil =>
    rw [parseLoop_of_le (by rw [List.append_nil])]
    exact ⟨[], .nil _ _⟩
  | @char c cs hnone _ ih =>
    rw [byteLen_cons] at hfuel
    obtain ⟨n, rfl⟩ : ∃ n, fuel = n + c.utf8Size := ⟨fuel - c.utf8Size, by omega⟩
    obtain ⟨out, hout⟩ := ih (front ++ [c]) n (by omega)
    rw [parseLoop_char hnone]
    refine ⟨c :: out, Rewrites.char ?_⟩
    rwa [byteLen_append, byteLen_cons, byteLen_nil, Nat.add_zero] at hout ⊢
  | @mention m rest hsome hkind _ ih =>
    have hpos := byteLen_pos (mentionAt_ne_nil hsome)
    obtain ⟨n, rfl⟩ : ∃ n, fuel = n + 1 := ⟨fuel - 1, by omega⟩
    obtain ⟨m', hraw, hne, -, hstart, hstop, hloop⟩ :=
      @parseLoop_behind front rest n m hsome hkind
    rw [hraw] at hfuel hstop hloop ⊢
    have hraw' := byteLen_pos hne
    rw [byteLen_append] at hfuel hstop
    obtain ⟨out, hout⟩ := ih (front ++ m'.raw) n (by omega)
    rw [byteLen_append, ← hstop] at hout
    rw [hloop, byteLen_append, ← hstop]
    exact ⟨_, @Rewrites.cons (byteLen front) [] rest out m' _ hstart (by omega) hne hout⟩

theorem mentionAt_spec {s : List Char} {m : Mention} (h : mentionAt s = some m) :
    ∃ consumed, ReadAt s 0 m consumed := by
  rw [mentionAt] at h
  split_ifs at h with hhead
  obtain ⟨cs, rfl⟩ : ∃ cs, s = '@' :: cs := List.head?_eq_some_iff.mp hhead
  obtain ⟨⟨m, consumed⟩, hparse, rfl⟩ := Option.map_eq_some_iff.mp h
  exact ⟨consumed, parseAtPosition_spec hparse⟩

/-- A walk that reads no agent passes a text without them. -/
theorem agentFree_of_parseLoop (front : List Char) (fuel : ℕ) (hfuel : byteLen rest ≤ fuel)
    (h : ∀ m ∈ parseLoop (front ++ rest) fuel (byteLen front), m.kind ≠ .agent) :
    AgentFree rest := by
  induction hn : rest.length using Nat.strongRecOn generalizing rest front fuel with
  | ind n ih =>
    match rest with
    | [] => exact .nil
    | c :: cs =>
      have hpos := byteLen_pos (List.cons_ne_nil c cs)
      match hmention : mentionAt (c :: cs) with
      | none =>
        rw [byteLen_cons] at hfuel
        obtain ⟨k, rfl⟩ : ∃ k, fuel = k + c.utf8Size := ⟨fuel - c.utf8Size, by omega⟩
        rw [parseLoop_char hmention] at h
        refine .char hmention (ih cs.length ?_ (front ++ [c]) k ?_ h rfl)
        · rw [← hn]
          exact Nat.lt_succ_self _
        · omega
      | some m =>
        obtain ⟨k, rfl⟩ : ∃ k, fuel = k + 1 := ⟨fuel - 1, by omega⟩
        have hfree : m.kind ≠ .agent := by
          obtain ⟨_, m', -, -, hkind, hloop⟩ := @parseLoop_mention front k _ m hmention
          exact hkind ▸ h m' (hloop ▸ List.mem_cons_self)
        obtain ⟨_, hread⟩ := mentionAt_spec hmention
        have hraw := byteLen_pos hread.nonempty
        obtain ⟨rest, hrest⟩ := hread.raw
        rw [← hrest] at hmention hn hfuel h ⊢
        obtain ⟨_, -, -, -, -, -, hbehind⟩ := @parseLoop_behind front rest k m hmention hfree
        rw [hbehind] at h
        rw [byteLen_append] at hfuel
        refine .mention hmention hfree (ih rest.length ?_ (front ++ m.raw) k ?_ ?_ rfl)
        · have hlength := List.length_pos_iff.mpr hread.nonempty
          rw [← hn, List.length_append]
          omega
        · omega
        · exact fun m hm => h m (List.mem_cons_of_mem _ hm)

end Walk

/-- Every mention that is read is counted as its form counts it. -/
theorem stop_parseLoop (input : List Char) (fuel i : ℕ) :
    ∀ m ∈ parseLoop input fuel i,
      m.stop = m.start + byteLen m.raw + if m.kind = .agent then 1 else 0 := by
  induction fuel generalizing i with
  | zero => simp [parseLoop]
  | succ fuel ih =>
    rw [parseLoop]
    split
    · split
      · next cs heq =>
        split
        · next m consumed hparse =>
          have hread := parseAtPosition_spec hparse
          rw [List.forall_mem_cons]
          refine ⟨?_, ih _⟩
          rw [hread.stop, hread.start, hread.consumed, Nat.add_assoc]
        · exact ih _
      · exact ih _
    · simp

/-- Which prompts are parsed and rewritten rightly: those in which the walk meets no mention of an
agent. -/
theorem parse_right_iff (input : String) :
    (∃ set, parse input = some set ∧ Right input.toList set) ↔ AgentFree input.toList := by
  constructor
  · rintro ⟨set, hparse, hright⟩
    obtain ⟨rewritten, -, rfl⟩ := Option.map_eq_some_iff.mp hparse
    refine agentFree_of_parseLoop [] _ le_rfl fun m hm hkind => ?_
    have hspan := stop_parseLoop _ _ _ m hm
    obtain ⟨-, -, -, -, hslice⟩ := slice_eq_some_iff.mp (hright.raw m hm)
    rw [if_pos hkind] at hspan
    omega
  · intro hfree
    obtain ⟨out, hout⟩ := rewrites_parseLoop hfree [] _ le_rfl
    have hrewrite := hout.rewriteFrom rfl
    refine ⟨⟨_, out⟩, Option.map_eq_some_iff.mpr ⟨out, hrewrite, rfl⟩, ?_⟩
    exact ⟨hout.spans.2, fun m hm => (hout.spans.1 m hm).2, hout.raw rfl, hout⟩

/-- A mention of an agent begins with its form. -/
theorem prefix_of_agent {s : List Char} {m : Mention} (h : mentionAt s = some m)
    (hkind : m.kind = .agent) : "@agent:".toList <+: s := by
  rw [mentionAt] at h
  split_ifs at h with hhead
  obtain ⟨cs, rfl⟩ : ∃ cs, s = '@' :: cs := List.head?_eq_some_iff.mp hhead
  obtain ⟨⟨m, consumed⟩, hparse, rfl⟩ := Option.map_eq_some_iff.mp h
  rw [parseAtPosition_eq] at hparse
  simp only [Option.or_eq_some_iff] at hparse
  rcases hparse with ((((hagent | ⟨-, hgit⟩) | ⟨-, hquoted⟩) | ⟨-, hweb⟩) | ⟨-, hpath⟩)
  · obtain ⟨rest, hrest, -⟩ := Option.bind_eq_some_iff.mp hagent
    exact ⟨rest, (eq_append_of_dropPrefix? hrest).symm⟩
  · exact absurd ((readAt_wordMention (by decide) (by decide) hgit).2.symm.trans hkind) (by decide)
  · exact absurd ((readAt_quotedMention hquoted).2.symm.trans hkind) (by decide)
  · exact absurd ((readAt_wordMention (by decide) (by decide) hweb).2.symm.trans hkind) (by decide)
  · split_ifs at hpath
    exact absurd hkind (readAt_parsePathMention hpath).2

/-- A text in which `@agent:` does not stand. -/
theorem agentFree_of_not_infix {s : List Char} (h : ¬ "@agent:".toList <:+: s) : AgentFree s := by
  induction hn : s.length using Nat.strongRecOn generalizing s with
  | ind n ih =>
    match s with
    | [] => exact .nil
    | c :: cs =>
      match hmention : mentionAt (c :: cs) with
      | none =>
        refine .char hmention (ih cs.length ?_ (fun hinfix => h ?_) rfl)
        · rw [← hn]
          exact Nat.lt_succ_self _
        · exact hinfix.trans (List.suffix_cons c cs).isInfix
      | some m =>
        have hfree : m.kind ≠ .agent := fun hkind => h (prefix_of_agent hmention hkind).isInfix
        obtain ⟨_, hread⟩ := mentionAt_spec hmention
        obtain ⟨rest, hrest⟩ := hread.raw
        rw [← hrest] at hmention hn h ⊢
        refine .mention hmention hfree (ih rest.length ?_ (fun hinfix => h ?_) rfl)
        · have hlength := List.length_pos_iff.mpr hread.nonempty
          rw [← hn, List.length_append]
          omega
        · exact hinfix.trans (List.suffix_append m.raw rest).isInfix

namespace AskedAgent

/-- A prompt that ends with the name of an agent. -/
def input : String := "ask @agent:forge"

theorem not_parsed : ¬ ∃ set, parse input = some set ∧ Right input.toList set := by
  have hpanic : parse input = none := by decide +kernel
  rintro ⟨set, hparse, -⟩
  rw [hpanic] at hparse
  cases hparse

end AskedAgent

end Paste

end HeliosLite
