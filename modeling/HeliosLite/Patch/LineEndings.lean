import HeliosLite.Patch.Replacement

/-!
# Line endings after a patch

The search text and the content get the line ending of the file before they are used. What is
inserted may still meet what is kept in the middle of a line ending.

## Main definitions

* `HasLineEnding` — all line endings of a text are of one kind
* `Joins` — the content and the parts that are kept meet without a broken line ending
* `KeepsLineEnding` — this, for the range or the service that the operation comes to

## Main results

* `normalize_lf`, `normalize_crlf` — when the content has the line ending of the file
* `hasLineEnding_iff_keepsLineEnding` — when the patched file has the line ending of the file
-/

namespace HeliosLite.Patch

open Theory Range

/-- All line endings of the text are of the kind. A carriage return on its own is no line
ending. -/
def HasLineEnding : LineEnding → Text → Prop
  | .lf, text => ¬ LineEnding.crlf.text <:+: text
  | .crlf, text => ∀ before after, text = before ++ '\n' :: after → before.getLast? = some '\r'

/-- The second character may follow the first one. -/
def Follows : LineEnding → Char → Char → Prop
  | .lf, a, b => ¬(a = '\r' ∧ b = '\n')
  | .crlf, a, b => b = '\n' → a = '\r'

instance (ending : LineEnding) : DecidableRel (Follows ending) := fun a b =>
  match ending with
  | .lf => inferInstanceAs (Decidable (¬(a = '\r' ∧ b = '\n')))
  | .crlf => inferInstanceAs (Decidable (b = '\n' → a = '\r'))

/-- What stands before a text: no carriage return. -/
def margin : Char := ' '

theorem follows_margin_lf (b : Char) : Follows .lf margin b := fun h => absurd h.1 (by decide)

theorem hasLineEnding_lf_iff {text : Text} :
    HasLineEnding .lf text ↔ ¬ ['\r', '\n'] <:+: text := Iff.rfl

theorem follows_lf_iff {a b : Char} : Follows .lf a b ↔ ¬(a = '\r' ∧ b = '\n') := Iff.rfl

/-- Text by text, a kind of line endings is a relation between neighbours. -/
theorem hasLineEnding_iff (ending : LineEnding) (text : Text) :
    HasLineEnding ending text ↔ (margin :: text).IsChain (Follows ending) := by
  cases ending with
  | lf =>
    have hcons : ∀ text : Text, (margin :: text).IsChain (Follows .lf) ↔
        text.IsChain (Follows .lf) := by
      intro text
      rw [List.isChain_cons]
      exact and_iff_right fun b _ => follows_margin_lf b
    rw [hcons]
    induction text with
    | nil => simp [HasLineEnding, LineEnding.text]
    | cons c text ih =>
      have hstep : HasLineEnding .lf (c :: text) ↔
          (∀ b ∈ text.head?, Follows .lf c b) ∧ HasLineEnding .lf text := by
        rw [hasLineEnding_lf_iff, hasLineEnding_lf_iff, List.infix_cons_iff, not_or]
        refine and_congr_left fun _ => ?_
        cases text with
        | nil => simp
        | cons b text =>
          simp only [List.cons_prefix_cons, List.nil_prefix, and_true, List.head?_cons,
            Option.mem_some_iff, forall_eq', follows_lf_iff]
          exact not_congr ⟨fun h => ⟨h.1.symm, h.2.symm⟩, fun h => ⟨h.1.symm, h.2.symm⟩⟩
      exact hstep.trans ((and_congr_right fun _ => ih).trans List.isChain_cons.symm)
  | crlf =>
    have hgeneral : ∀ (a : Char) (text : Text), (a :: text).IsChain (Follows .crlf) ↔
        ∀ before after, text = before ++ '\n' :: after → (a :: before).getLast? = some '\r' := by
      intro a text
      induction text generalizing a with
      | nil => simp
      | cons c text ih =>
        rw [List.isChain_cons_cons, ih]
        constructor
        · rintro ⟨hfirst, hrest⟩ before after heq
          cases before with
          | nil =>
            obtain ⟨rfl, rfl⟩ := List.cons.inj heq
            rw [hfirst rfl]
            rfl
          | cons b before =>
            obtain ⟨rfl, rfl⟩ := List.cons.inj heq
            rw [List.getLast?_cons_cons]
            exact hrest before after rfl
        · intro h
          refine ⟨fun hc => ?_, fun before after heq => ?_⟩
          · simpa using h [] text (by rw [hc]; rfl)
          · have hlast := h (c :: before) after (by rw [heq]; rfl)
            rwa [List.getLast?_cons_cons] at hlast
    rw [hgeneral]
    refine forall₃_congr fun before after _ => ?_
    cases before with
    | nil => exact iff_of_false (by simp) (by decide)
    | cons b before => rw [List.getLast?_cons_cons]

theorem isChain_of_infix {ending : LineEnding} {text part : Text}
    (h : HasLineEnding ending text) (hpart : part <:+: text) :
    part.IsChain (Follows ending) := by
  obtain ⟨before, after, rfl⟩ := hpart
  have hchain := (hasLineEnding_iff _ _).mp h
  rw [← List.cons_append, ← List.cons_append, List.isChain_append, List.isChain_append] at hchain
  exact hchain.1.2.1

/-! ### The content with the line ending of the file -/

/-- Line feeds in place of the line endings `\r\n`. -/
def unix : Text → Text
  | [] => []
  | '\r' :: '\n' :: text => '\n' :: unix text
  | c :: text => c :: unix text

theorem unix_cons {c : Char} {text : Text} (h : c = '\r' → ¬ ['\n'] <+: text) :
    unix (c :: text) = c :: unix text := by
  rw [unix]
  rintro rest rfl rfl
  exact h rfl ⟨rest, rfl⟩

theorem unix_append {text before after : Text} (hfirst : FirstAt LineEnding.crlf.text text before)
    (heq : text = before ++ LineEnding.crlf.text ++ after) :
    unix text = before ++ '\n' :: unix after := by
  subst heq
  induction before with
  | nil => rfl
  | cons c before ih =>
    have hrest : FirstAt LineEnding.crlf.text (before ++ LineEnding.crlf.text ++ after) before := by
      refine ⟨List.prefix_append _ _, fun other hother => ?_⟩
      have hle := hfirst.2 (c :: other) (List.cons_prefix_cons.mpr ⟨rfl, hother⟩)
      simpa using hle
    rw [List.cons_append, List.cons_append, List.cons_append, ← ih hrest]
    refine unix_cons fun hc hnext => ?_
    obtain ⟨rest, hrest⟩ := hnext
    have hle := hfirst.2 [] ⟨rest, by
      rw [hc, List.cons_append, List.cons_append, ← hrest]
      rfl⟩
    simp at hle

theorem unix_of_not_infix {text : Text} (h : ¬ LineEnding.crlf.text <:+: text) :
    unix text = text := by
  induction text with
  | nil => rfl
  | cons c text ih =>
    rw [unix_cons, ih fun h' => h (h'.trans (List.suffix_cons c text).isInfix)]
    rintro rfl ⟨rest, rfl⟩
    exact h ⟨[], rest, rfl⟩

theorem replace_crlf (text : Text) :
    Theory.replace LineEnding.crlf.text LineEnding.lf.text text = unix text := by
  have hcut := cut_parts (w := LineEnding.crlf.text) (List.cons_ne_nil _ _) text
  unfold Theory.replace
  generalize parts LineEnding.crlf.text text = ps at hcut
  induction hcut with
  | @last text h =>
    rw [List.intercalate_singleton, unix_of_not_infix]
    rintro ⟨before, after, rfl⟩
    exact h before ⟨after, rfl⟩
  | cons hfirst heq hafter ih =>
    rw [List.intercalate_cons_of_ne_nil hafter.ne_nil, ih, unix_append hfirst heq,
      LineEnding.text, List.append_assoc, List.singleton_append]

theorem head?_unix {text : Text} (h : (unix text).head? = some '\n') :
    ['\n'] <+: text ∨ ['\r', '\n'] <+: text := by
  induction text using unix.induct with
  | case1 => cases h
  | case2 text => exact Or.inr ⟨text, rfl⟩
  | case3 c text hnot =>
    have hcons : unix (c :: text) = c :: unix text := unix_cons fun hc ⟨rest, hrest⟩ =>
      hnot rest hc hrest.symm
    rw [hcons] at h
    obtain rfl : c = '\n' := Option.some.inj h
    exact Or.inl ⟨text, rfl⟩

/-- Where the file has line feeds, the content is left with `\r\n` where it had another carriage
return before it. -/
theorem isChain_unix_iff (text : Text) :
    (unix text).IsChain (Follows .lf) ↔ ¬ ['\r', '\r', '\n'] <:+: text := by
  induction text using unix.induct with
  | case1 => simp [unix]
  | case2 text ih =>
    rw [unix, List.isChain_cons, ih, List.infix_cons_iff, List.infix_cons_iff]
    simp [Follows]
  | case3 c text hnot ih =>
    have hcons : unix (c :: text) = c :: unix text := unix_cons fun hc ⟨rest, hrest⟩ =>
      hnot rest hc hrest.symm
    rw [hcons, List.isChain_cons, ih, List.infix_cons_iff, not_or]
    refine and_congr_left fun _ => ?_
    rw [List.cons_prefix_cons]
    constructor
    · rintro hfollows ⟨rfl, rest, rfl⟩
      exact hfollows '\n' rfl ⟨rfl, rfl⟩
    · rintro hprefix b hb ⟨rfl, rfl⟩
      rcases head?_unix hb with hnext | hnext
      · obtain ⟨rest, rfl⟩ := hnext
        exact hnot rest rfl rfl
      · exact hprefix ⟨rfl, hnext⟩

/-- Where the file has `\r\n`, so has the content. -/
theorem hasLineEnding_normalize_crlf {file : Text} (hfile : detectLineEnding file = .crlf)
    (content : Text) : HasLineEnding .crlf (normalizeSearchLineEndings file content) := by
  rw [hasLineEnding_iff]
  unfold normalizeSearchLineEndings
  rw [hfile]
  dsimp only
  rw [show LineEnding.lf.text = ['\n'] from rfl, replace_singleton]
  generalize replace LineEnding.crlf.text ['\n'] content = text
  generalize margin = a
  induction text generalizing a with
  | nil => exact List.isChain_singleton a
  | cons c text ih =>
    rw [List.flatMap_cons]
    split_ifs with hc
    · refine List.isChain_cons_cons.mpr ⟨fun h => absurd h (by decide), ?_⟩
      exact List.isChain_cons_cons.mpr ⟨fun _ => rfl, ih '\n'⟩
    · exact List.isChain_cons_cons.mpr ⟨fun h => absurd h hc, ih c⟩

/-! ### Where the content meets the file -/

/-- The content has no ending that it would not have left, and between the beginning, the parts
that are kept and the content, empty texts aside, no line ending is broken or made. -/
def Joins (file content : Text) (parts : List Text) : Prop :=
  (detectLineEnding file = .lf → ¬ ['\r', '\r', '\n'] <:+: content) ∧
    Adjoins (Follows (detectLineEnding file))
      ([margin] :: parts.intersperse (normalizeSearchLineEndings file content))

theorem isChain_normalize_iff (file content : Text) :
    (normalizeSearchLineEndings file content).IsChain (Follows (detectLineEnding file)) ↔
      (detectLineEnding file = .lf → ¬ ['\r', '\r', '\n'] <:+: content) := by
  cases hfile : detectLineEnding file with
  | lf =>
    have hcontent : normalizeSearchLineEndings file content = unix content := by
      unfold normalizeSearchLineEndings
      rw [hfile, replace_crlf]
    rw [hcontent, isChain_unix_iff]
    exact ⟨fun h _ => h, fun h => h rfl⟩
  | crlf =>
    have hchain := (hasLineEnding_iff _ _).mp (hasLineEnding_normalize_crlf hfile content)
    exact iff_of_true (List.isChain_of_isChain_cons hchain) nofun

/-- The file that is joined has the line ending where the texts meet. -/
theorem hasLineEnding_intercalate_iff {file content : Text} {parts : List Text}
    (hfile : HasLineEnding (detectLineEnding file) file) (htwo : 2 ≤ parts.length)
    (hparts : ∀ p ∈ parts, p <:+: file) :
    HasLineEnding (detectLineEnding file)
        ((normalizeSearchLineEndings file content).intercalate parts) ↔
      Joins file content parts := by
  have hchains : ∀ p ∈ parts, p.IsChain (Follows (detectLineEnding file)) := fun p hp =>
    isChain_of_infix hfile (hparts p hp)
  have hflat : margin :: (normalizeSearchLineEndings file content).intercalate parts =
      ([margin] :: parts.intersperse (normalizeSearchLineEndings file content)).flatten := rfl
  rw [hasLineEnding_iff, hflat, isChain_flatten_iff, List.forall_mem_cons,
    forall_mem_intersperse htwo, isChain_normalize_iff, Joins]
  refine and_congr_left fun _ => ⟨fun h => h.2.2, fun h => ⟨List.isChain_singleton _, hchains, h⟩⟩

/-- The condition for the operation: the range of the search text, the text of the patch service
or the range of the first match of the search service keep the line ending. -/
def KeepsLineEnding (infra : PatchInfra) (file search content : Text) (operation : PatchOperation)
    (useTextPatchFallback : Bool) : Prop :=
  match computeRange file (some search) operation with
  | .ok range => Joins file content (kept file range operation)
  | .error _ =>
    if useTextPatchFallback then
      ∀ patch, infra.buildTextPatch file (normalizeSearchLineEndings file search)
        (normalizeSearchLineEndings file content) = .ok patch →
          HasLineEnding (detectLineEnding file) patch.patchedText
    else
      ∀ searchMatch more, infra.fuzzySearch search file false = some (searchMatch :: more) →
        Joins file content (kept file (some (fromSearchMatch file searchMatch)) operation)

theorem computeRange_error {file search : Text} {operation : PatchOperation} {e : PatchError}
    (h : computeRange file (some search) operation = .error e) : e = .noMatch search := by
  unfold computeRange at h
  dsimp only at h
  split_ifs at h
  split at h
  · cases h
  · cases operation <;> cases h <;> rfl

theorem applyReplaceOperation_of_error {infra : PatchInfra} {file search content : Text}
    {operation : PatchOperation} {useTextPatchFallback : Bool} {e : PatchError}
    (hoperation : operation = .replace ∨ operation = .replaceAll)
    (h : computeRange file (some search) operation = .error e) :
    applyReplaceOperation infra file search content operation useTextPatchFallback =
      if useTextPatchFallback then applyTextPatchFallback infra file search content
      else applyFuzzySearchFallback infra file search content operation := by
  obtain rfl := computeRange_error h
  unfold applyReplaceOperation
  rw [h]
  exact if_pos (hoperation.imp_right Or.inl)

/-- A patched file has the line ending that all line endings of the file have exactly when the
range or the service keeps it. -/
theorem hasLineEnding_iff_keepsLineEnding {infra : PatchInfra} {file search content new : Text}
    {operation : PatchOperation} {useTextPatchFallback : Bool}
    (hoperation : operation = .replace ∨ operation = .replaceAll)
    (hfile : HasLineEnding (detectLineEnding file) file)
    (hnew : applyReplaceOperation infra file search content operation useTextPatchFallback =
      .ok new) :
    HasLineEnding (detectLineEnding file) new ↔
      KeepsLineEnding infra file search content operation useTextPatchFallback := by
  have hedit : ∀ range, applyReplacement file range operation content = .ok new →
      (HasLineEnding (detectLineEnding file) new ↔
        Joins file content (kept file range operation)) := by
    intro range hrange
    obtain ⟨rfl, htwo, hparts⟩ := eq_intercalate_of_applyReplacement hoperation hrange
    exact hasLineEnding_intercalate_iff hfile htwo hparts
  unfold KeepsLineEnding
  cases hrange : computeRange file (some search) operation with
  | ok range =>
    unfold applyReplaceOperation at hnew
    rw [hrange] at hnew
    exact hedit range hnew
  | error e =>
    rw [applyReplaceOperation_of_error hoperation hrange] at hnew
    cases useTextPatchFallback with
    | true =>
      simp only [↓reduceIte] at hnew ⊢
      unfold applyTextPatchFallback at hnew
      dsimp only at hnew
      split at hnew
      · rename_i patch hpatch
        obtain rfl := Except.ok.inj hnew
        refine ⟨fun h p hp => ?_, fun h => h patch hpatch⟩
        obtain rfl : patch = p := Except.ok.inj (hpatch.symm.trans hp)
        exact h
      · cases hnew
    | false =>
      simp only [Bool.false_eq_true, ↓reduceIte] at hnew ⊢
      unfold applyFuzzySearchFallback at hnew
      split at hnew
      · rename_i searchMatch more hfuzzy
        rw [hedit _ hnew]
        refine ⟨fun h m ms hm => ?_, fun h => h searchMatch more hfuzzy⟩
        obtain ⟨rfl, -⟩ := List.cons.inj (Option.some.inj (hfuzzy.symm.trans hm))
        exact h
      · cases hnew

/-- Services that find nothing. -/
def PatchInfra.silent : PatchInfra := ⟨fun _ _ _ => some [], fun _ _ _ => .error "unreachable"⟩

/-- A line feed in the content becomes the ending of the file. -/
theorem hasLineEnding_crlf_kept : HasLineEnding .crlf "a\r\nx\r\ny\r\n".toList := by
  have hrange : computeRange "a\r\nb\r\n".toList (some "b".toList) .replace =
      .ok (some ⟨3, 1⟩) := by decide +kernel
  have hparts : kept "a\r\nb\r\n".toList (some ⟨3, 1⟩) .replace =
      ["a\r\n".toList, "\r\n".toList] := by decide +kernel
  have hcontent : normalizeSearchLineEndings "a\r\nb\r\n".toList "x\ny".toList =
      "x\r\ny".toList := by decide +kernel
  have hending : detectLineEnding "a\r\nb\r\n".toList = .crlf := by decide +kernel
  have hjoins : Joins "a\r\nb\r\n".toList "x\ny".toList
      ["a\r\n".toList, "\r\n".toList] := by
    refine ⟨fun h => absurd (hending.symm.trans h) nofun, ?_⟩
    rw [hcontent, hending]
    simp [Adjoins, Follows]
  have hkeeps : KeepsLineEnding .silent "a\r\nb\r\n".toList "b".toList "x\ny".toList .replace
      false := by
    unfold KeepsLineEnding
    rw [hrange]
    change Joins _ _ (kept _ _ _)
    rw [hparts]
    exact hjoins
  exact (hasLineEnding_iff_keepsLineEnding (Or.inl rfl)
    ((hasLineEnding_iff _ _).mpr (by decide +kernel)) (by decide +kernel)).mpr hkeeps

/-- In a file with line feeds, a carriage return before an ending `\r\n` of the content leaves
this ending. -/
theorem hasLineEnding_lf_lost :
    HasLineEnding .lf "a\nb\n".toList ∧
      applyReplaceOperation .silent "a\nb\n".toList "b".toList "x\r\r\n".toList .replace false =
        .ok "a\nx\r\n\n".toList ∧
      ¬HasLineEnding .lf "a\nx\r\n\n".toList := by
  refine ⟨?_, by decide +kernel, ?_⟩
  · rw [hasLineEnding_lf_iff]
    decide +kernel
  · rw [hasLineEnding_lf_iff, not_not]
    exact ⟨"a\nx".toList, ['\n'], by decide +kernel⟩

end HeliosLite.Patch
