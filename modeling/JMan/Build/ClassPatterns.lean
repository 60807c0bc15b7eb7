import Mathlib.Data.List.TakeDrop
import JMan.Lib.Loop
import JMan.Lib.TextPatterns

/-!
# JMan — patterns of class names

`wildcard_matches` of `jman-build/src/lib.rs`, by which a coverage report includes and
excludes classes. It compares bytes from left to right and keeps the last star it has
passed, with the place in the value from which that star may take one byte more.

* `wildcardMatches_iff` — a value without stars matches exactly where a star stands for
  any text, a question mark for one character, and slashes for dots.
-/

namespace JMan.Build

open Encoding (Bytes utf8)
open Wildcards (Token Matches Single byteToken byteTokens charTokens ReadsAlike)

-- The loop
-- ---

structure Scan where
  patternIndex : Nat
  valueIndex : Nat
  star : Option Nat
  retry : Nat
deriving DecidableEq

def Scan.start : Scan := { patternIndex := 0, valueIndex := 0, star := none, retry := 0 }

/-- A turn of the loop; after it, the rest of the pattern may only have stars. -/
def wildcardStep (pattern value : Bytes) (s : Scan) : Loop.Outcome Scan Bool :=
  if s.valueIndex < value.length then
    if s.patternIndex < pattern.length ∧ (pattern[s.patternIndex]? = some 63 ∨
        pattern[s.patternIndex]? = value[s.valueIndex]?) then
      .next { s with patternIndex := s.patternIndex + 1, valueIndex := s.valueIndex + 1 }
    else if pattern[s.patternIndex]? = some 42 then
      .next { s with star := some s.patternIndex, patternIndex := s.patternIndex + 1,
                     retry := s.valueIndex }
    else
      match s.star with
      | some starIndex =>
        .next { s with patternIndex := starIndex + 1, retry := s.retry + 1, valueIndex := s.retry + 1 }
      | none => .stop false
  else .stop ((pattern.drop s.patternIndex).dropWhile (· == 42)).isEmpty

/-- What is left to do: the last star can still be moved, or found. -/
def wildcardMeasure (pattern value : Bytes) (s : Scan) : Nat :=
  ((value.length - s.retry) * (pattern.length + 2) +
      (pattern.length + 1 - s.star.elim 0 (· + 1))) * (value.length + 1) +
    (value.length - s.valueIndex)

/-- `pattern.replace(['/', '\\'], ".")` -/
def dotted (pattern : String) : String :=
  String.ofList (pattern.toList.map fun c => if c = '/' ∨ c = '\\' then '.' else c)

/-- `wildcard_matches`, executed for as many turns as it can take. -/
def wildcardMatches (pattern value : String) : Bool :=
  let step := wildcardStep (utf8 (dotted pattern)) (utf8 value)
  (Loop.run step (wildcardMeasure (utf8 (dotted pattern)) (utf8 value) .start + 1) .start).getD false

-- The invariant
-- ---

/-- Where a search stands: without a star, what is left decides; with one, it does when
the star gives nothing back, and what stands between the star and the place in the
pattern took what stands between the two places in the value. -/
def Decides (pattern value : Bytes) (s : Scan) : Prop :=
  match s.star with
  | none => Matches (byteTokens pattern) value ↔
      Matches (byteTokens (pattern.drop s.patternIndex)) (value.drop s.valueIndex)
  | some starIndex => ∃ block taken, Single block ∧ Matches block taken ∧
      pattern[starIndex]? = some 42 ∧
      byteTokens (pattern.drop (starIndex + 1)) = block ++ byteTokens (pattern.drop s.patternIndex) ∧
      value.drop s.retry = taken ++ value.drop s.valueIndex ∧
      (Matches (byteTokens pattern) value ↔
        Matches (.star :: byteTokens (pattern.drop (starIndex + 1))) (value.drop s.retry))

structure Scanned (pattern value : Bytes) (s : Scan) : Prop where
  patternIndex_le : s.patternIndex ≤ pattern.length
  valueIndex_le : s.valueIndex ≤ value.length
  retry_le : s.retry ≤ s.valueIndex
  star_lt : ∀ starIndex, s.star = some starIndex → starIndex < s.patternIndex
  decides : Decides pattern value s

section Loop

variable {pattern value : Bytes} {s s' : Scan}

theorem byteTokens_drop {i : Nat} (hi : i < pattern.length) :
    byteTokens (pattern.drop i) = byteToken pattern[i] :: byteTokens (pattern.drop (i + 1)) := by
  rw [List.drop_eq_getElem_cons hi]
  rfl

theorem Scanned.start (pattern value : Bytes) : Scanned pattern value .start where
  patternIndex_le := Nat.zero_le _
  valueIndex_le := Nat.zero_le _
  retry_le := Nat.le_refl _
  star_lt starIndex h := by cases h
  decides := Iff.rfl

theorem single_byteToken {b a : UInt8} (hstar : a ≠ 42) (h : b = 63 ∨ b = a) :
    ∃ p, byteToken b = .one p ∧ p a := by
  unfold byteToken
  rcases h with rfl | rfl
  · exact ⟨fun _ => True, by simp, trivial⟩
  · rw [if_neg hstar]
    by_cases hany : b = 63
    · exact ⟨fun _ => True, by rw [if_pos hany], trivial⟩
    · exact ⟨(· = b), by rw [if_neg hany], rfl⟩

theorem Scanned.advance (h : Scanned pattern value s) (hvalue : 42 ∉ value)
    (hv : s.valueIndex < value.length) (hp : s.patternIndex < pattern.length)
    (haccepts : pattern[s.patternIndex]? = some 63 ∨
      pattern[s.patternIndex]? = value[s.valueIndex]?) :
    Scanned pattern value
      { s with patternIndex := s.patternIndex + 1, valueIndex := s.valueIndex + 1 } where
  patternIndex_le := hp
  valueIndex_le := hv
  retry_le := Nat.le_succ_of_le h.retry_le
  star_lt starIndex hstar := Nat.lt_succ_of_lt (h.star_lt starIndex hstar)
  decides := by
    have ha : value[s.valueIndex] ≠ 42 := fun ha => hvalue (ha ▸ List.getElem_mem hv)
    rw [List.getElem?_eq_getElem hp, List.getElem?_eq_getElem hv, Option.some_inj,
      Option.some_inj] at haccepts
    obtain ⟨p, htoken, hpa⟩ := single_byteToken ha haccepts
    have hpattern : byteTokens (pattern.drop s.patternIndex) =
        .one p :: byteTokens (pattern.drop (s.patternIndex + 1)) := by
      rw [byteTokens_drop hp, htoken]
    have hvalue' : value.drop s.valueIndex =
        value[s.valueIndex] :: value.drop (s.valueIndex + 1) := List.drop_eq_getElem_cons hv
    have hdecides := h.decides
    unfold Decides at hdecides ⊢
    cases hstar : s.star with
    | none =>
      rw [hstar] at hdecides
      simp only at hdecides ⊢
      rw [hdecides, hpattern, hvalue', Wildcards.matches_one_cons, and_iff_right hpa]
    | some starIndex =>
      rw [hstar] at hdecides
      simp only at hdecides ⊢
      obtain ⟨block, taken, hblock, htaken, hat, hrest, hsplit, hiff⟩ := hdecides
      refine ⟨block ++ [.one p], taken ++ [value[s.valueIndex]], ?_, ?_, hat, ?_, ?_, hiff⟩
      · intro token htoken'
        rcases List.mem_append.mp htoken' with hmem | hmem
        · exact hblock token hmem
        · exact ⟨p, List.mem_singleton.mp hmem⟩
      · exact htaken.append (.one hpa .nil)
      · rw [hrest, hpattern, List.append_assoc, List.singleton_append]
      · rw [hsplit, hvalue', List.append_assoc, List.singleton_append]

theorem Scanned.pass (h : Scanned pattern value s) (hat : pattern[s.patternIndex]? = some 42) :
    Scanned pattern value { s with star := some s.patternIndex, patternIndex := s.patternIndex + 1,
                                   retry := s.valueIndex } where
  patternIndex_le := (List.getElem?_eq_some_iff.mp hat).1
  valueIndex_le := h.valueIndex_le
  retry_le := Nat.le_refl _
  star_lt starIndex hstar := by
    obtain rfl := Option.some.inj hstar
    exact Nat.lt_succ_self _
  decides := by
    obtain ⟨hp, hstar⟩ := List.getElem?_eq_some_iff.mp hat
    have hpattern : byteTokens (pattern.drop s.patternIndex) =
        .star :: byteTokens (pattern.drop (s.patternIndex + 1)) := by
      rw [byteTokens_drop hp, hstar]
      rfl
    refine ⟨[], [], by simp [Single], .nil, hat, rfl, rfl, ?_⟩
    have hdecides := h.decides
    unfold Decides at hdecides
    cases hbefore : s.star with
    | none =>
      rw [hbefore] at hdecides
      simp only at hdecides
      rw [hdecides, hpattern]
    | some starIndex =>
      rw [hbefore] at hdecides
      simp only at hdecides
      obtain ⟨block, taken, hblock, htaken, -, hrest, hsplit, hiff⟩ := hdecides
      rw [hiff, hrest, hpattern, hsplit, Wildcards.star_matches_skip hblock htaken]

theorem not_matches_of_mismatch (hv : s.valueIndex < value.length)
    (hmismatch : ¬ (s.patternIndex < pattern.length ∧ (pattern[s.patternIndex]? = some 63 ∨
      pattern[s.patternIndex]? = value[s.valueIndex]?)))
    (hstar : pattern[s.patternIndex]? ≠ some 42) :
    ¬ Matches (byteTokens (pattern.drop s.patternIndex)) (value.drop s.valueIndex) := by
  rw [List.drop_eq_getElem_cons hv]
  by_cases hp : s.patternIndex < pattern.length
  · rw [List.getElem?_eq_getElem hp, ne_eq, Option.some_inj] at hstar
    rw [List.getElem?_eq_getElem hp, List.getElem?_eq_getElem hv, Option.some_inj, Option.some_inj,
      and_iff_right hp, not_or] at hmismatch
    rw [byteTokens_drop hp, byteToken, if_neg hstar, if_neg hmismatch.1,
      Wildcards.matches_one_cons]
    exact fun hmatches => hmismatch.2 hmatches.1.symm
  · rw [List.drop_eq_nil_of_le (show pattern.length ≤ s.patternIndex by omega)]
    simpa using hv

theorem Scanned.back (h : Scanned pattern value s) (hv : s.valueIndex < value.length)
    (hmismatch : ¬ (s.patternIndex < pattern.length ∧ (pattern[s.patternIndex]? = some 63 ∨
      pattern[s.patternIndex]? = value[s.valueIndex]?)))
    (hstar : pattern[s.patternIndex]? ≠ some 42) {starIndex : Nat} (hbefore : s.star = some starIndex) :
    Scanned pattern value { s with patternIndex := starIndex + 1, retry := s.retry + 1,
                                   valueIndex := s.retry + 1 } where
  patternIndex_le := by
    have hlt := h.star_lt starIndex hbefore
    have hle := h.patternIndex_le
    show starIndex + 1 ≤ pattern.length
    omega
  valueIndex_le := by
    have hle := h.retry_le
    show s.retry + 1 ≤ value.length
    omega
  retry_le := Nat.le_refl _
  star_lt index hindex := by
    obtain rfl : starIndex = index := Option.some.inj (hbefore.symm.trans hindex)
    exact Nat.lt_succ_self _
  decides := by
    have hdecides := h.decides
    unfold Decides at hdecides ⊢
    rw [hbefore] at hdecides ⊢
    simp only at hdecides ⊢
    obtain ⟨block, taken, hblock, htaken, hat, hrest, hsplit, hiff⟩ := hdecides
    refine ⟨[], [], by simp [Single], .nil, hat, rfl, rfl, ?_⟩
    have hretry : s.retry < value.length := Nat.lt_of_le_of_lt h.retry_le hv
    rw [hiff, List.drop_eq_getElem_cons hretry, Wildcards.star_matches_next]
    rw [← List.drop_eq_getElem_cons hretry, hrest, hsplit, Wildcards.matches_block_iff hblock htaken]
    exact not_matches_of_mismatch hv hmismatch hstar

/-- **Every turn keeps the invariant.** -/
theorem Scanned.next (hvalue : 42 ∉ value) (h : Scanned pattern value s)
    (hstep : wildcardStep pattern value s = .next s') : Scanned pattern value s' := by
  unfold wildcardStep at hstep
  by_cases hv : s.valueIndex < value.length
  swap
  · rw [if_neg hv] at hstep
    cases hstep
  rw [if_pos hv] at hstep
  split at hstep
  · next haccepts =>
    obtain rfl := Loop.Outcome.next.inj hstep
    exact h.advance hvalue hv haccepts.1 haccepts.2
  next hmismatch =>
  split at hstep
  · next hat =>
    obtain rfl := Loop.Outcome.next.inj hstep
    exact h.pass hat
  next hstar =>
  split at hstep
  · next starIndex hbefore =>
    obtain rfl := Loop.Outcome.next.inj hstep
    exact h.back hv hmismatch hstar hbefore
  · cases hstep

theorem matches_rest_iff (rest : Bytes) :
    Matches (byteTokens rest) [] ↔ (rest.dropWhile (· == 42)).isEmpty = true := by
  induction rest with
  | nil => simp
  | cons b rest ih =>
    by_cases hb : b = 42
    · subst hb
      simpa [byteToken] using ih
    · have htoken : ∃ p, byteToken b = .one p := by
        unfold byteToken
        rw [if_neg hb]
        split
        · exact ⟨_, rfl⟩
        · exact ⟨_, rfl⟩
      obtain ⟨p, hp⟩ := htoken
      simp [hp, hb]

/-- **What the loop stops with is the answer.** -/
theorem Scanned.stop {result : Bool} (h : Scanned pattern value s)
    (hstep : wildcardStep pattern value s = .stop result) :
    result = true ↔ Matches (byteTokens pattern) value := by
  have hdecides := h.decides
  unfold Decides at hdecides
  unfold wildcardStep at hstep
  by_cases hv : s.valueIndex < value.length
  · rw [if_pos hv] at hstep
    split at hstep
    · cases hstep
    next hmismatch =>
    split at hstep
    · cases hstep
    next hstar =>
    split at hstep
    · cases hstep
    next hbefore =>
    obtain rfl := Loop.Outcome.stop.inj hstep
    rw [hbefore] at hdecides
    simp only at hdecides
    rw [hdecides]
    exact iff_of_false (by simp) (not_matches_of_mismatch hv hmismatch hstar)
  · rw [if_neg hv] at hstep
    obtain rfl := Loop.Outcome.stop.inj hstep
    have hend : value.drop s.valueIndex = [] := List.drop_eq_nil_of_le (by omega)
    rw [← matches_rest_iff]
    cases hbefore : s.star with
    | none =>
      rw [hbefore] at hdecides
      simp only [hend] at hdecides
      exact hdecides.symm
    | some starIndex =>
      rw [hbefore] at hdecides
      simp only [hend, List.append_nil] at hdecides
      obtain ⟨block, taken, hblock, htaken, -, hrest, rfl, hiff⟩ := hdecides
      rw [hiff, hrest, Wildcards.star_matches_end hblock htaken]

/-- **Every turn leaves less to do.** -/
theorem Scanned.decreases (h : Scanned pattern value s)
    (hstep : wildcardStep pattern value s = .next s') :
    wildcardMeasure pattern value s' < wildcardMeasure pattern value s := by
  have hretry := h.retry_le
  unfold wildcardStep at hstep
  by_cases hv : s.valueIndex < value.length
  swap
  · rw [if_neg hv] at hstep
    cases hstep
  rw [if_pos hv] at hstep
  split at hstep
  · obtain rfl := Loop.Outcome.next.inj hstep
    simp only [wildcardMeasure]
    omega
  split at hstep
  · next hat =>
    obtain rfl := Loop.Outcome.next.inj hstep
    have hp := (List.getElem?_eq_some_iff.mp hat).1
    have hstar : s.star.elim 0 (· + 1) ≤ s.patternIndex := by
      cases hbefore : s.star with
      | none => exact Nat.zero_le _
      | some starIndex => exact h.star_lt starIndex hbefore
    simp only [wildcardMeasure, Option.elim_some]
    have hfewer : (value.length - s.valueIndex) * (pattern.length + 2) ≤
        (value.length - s.retry) * (pattern.length + 2) := Nat.mul_le_mul_right _ (by omega)
    have hless : (value.length - s.valueIndex) * (pattern.length + 2) +
        (pattern.length + 1 - (s.patternIndex + 1)) <
          (value.length - s.retry) * (pattern.length + 2) +
            (pattern.length + 1 - s.star.elim 0 (· + 1)) := by omega
    have hall := Nat.mul_lt_mul_of_pos_right hless (Nat.succ_pos value.length)
    simp only [Nat.succ_eq_add_one] at hall
    omega
  split at hstep
  · obtain rfl := Loop.Outcome.next.inj hstep
    simp only [wildcardMeasure]
    have hone : (value.length - s.retry) * (pattern.length + 2) =
        (value.length - (s.retry + 1)) * (pattern.length + 2) + (pattern.length + 2) := by
      rw [← Nat.succ_mul]
      congr 1
      omega
    have hless : (value.length - (s.retry + 1)) * (pattern.length + 2) +
        (pattern.length + 1 - s.star.elim 0 (· + 1)) + 1 ≤
          (value.length - s.retry) * (pattern.length + 2) +
            (pattern.length + 1 - s.star.elim 0 (· + 1)) := by omega
    have hall := Nat.mul_le_mul_right (value.length + 1) hless
    rw [Nat.add_mul _ 1] at hall
    omega
  · cases hstep

end Loop

/-- **The loop ends, and answers whether the bytes match.** -/
theorem matches_of_returns (pattern : Bytes) {value : Bytes} (hvalue : 42 ∉ value) :
    ∃ result, Loop.run (wildcardStep pattern value)
        (wildcardMeasure pattern value .start + 1) .start = some result ∧
      (result = true ↔ Matches (byteTokens pattern) value) := by
  obtain ⟨result, hrun⟩ := Loop.run_of_invariant_measure (wildcardMeasure pattern value)
    (fun _ _ h hstep => Scanned.next hvalue h hstep) (fun _ _ h hstep => Scanned.decreases h hstep)
    (Scanned.start pattern value)
  refine ⟨result, hrun, ?_⟩
  obtain ⟨s, hreaches, hstop⟩ := Loop.returns_of_run hrun
  have hinv : Scanned pattern value s :=
    hreaches.invariant (fun _ _ h hstep => Scanned.next hvalue h hstep) (Scanned.start pattern value)
  exact hinv.stop hstop

-- Patterns and names
-- ---

theorem utf8_eq_encoded (text : String) : utf8 text = Wildcards.encoded text.toList :=
  OsText.toUTF8_eq_flatMap text

theorem readsAlike_dotted {pattern : String} {value : List Char}
    (h : ReadsAlike pattern.toList value) : ReadsAlike (dotted pattern).toList value := by
  refine h.imp_left fun hnone hmem => hnone ?_
  rw [dotted, String.toList_ofList] at hmem
  obtain ⟨c, hc, hquestion⟩ := List.mem_map.mp hmem
  split at hquestion
  · cases hquestion
  · exact hquestion ▸ hc

/-- **Names match by stars, question marks and dots.** For a value without stars the loop
ends, and its answer is whether the value is the pattern, with slashes read as dots, where
every star stands for some text and every question mark for one character. Without
question marks this holds for every value, and with them for values in ASCII. -/
theorem wildcardMatches_iff {pattern value : String} (hvalue : '*' ∉ value.toList)
    (halike : ReadsAlike pattern.toList value.toList) :
    Loop.Returns (wildcardStep (utf8 (dotted pattern)) (utf8 value)) .start
        (wildcardMatches pattern value) ∧
      (wildcardMatches pattern value = true ↔
        Matches (charTokens (dotted pattern).toList) value.toList) := by
  have hbytes : (42 : UInt8) ∉ utf8 value := fun hmem =>
    hvalue ((OsText.ascii_mem_toUTF8 (by decide) value).mp hmem)
  obtain ⟨result, hrun, hiff⟩ := matches_of_returns (utf8 (dotted pattern)) hbytes
  have hresult : wildcardMatches pattern value = result := by
    simp [wildcardMatches, hrun]
  rw [hresult]
  refine ⟨Loop.returns_of_run hrun, hiff.trans ?_⟩
  rw [utf8_eq_encoded, utf8_eq_encoded]
  exact Wildcards.matches_bytes_iff _ _ (readsAlike_dotted halike)

theorem wildcardMatches_service : wildcardMatches "com/example/*" "com.example.Service" = true := by
  refine (wildcardMatches_iff (by decide) (Or.inl (by decide))).2.mpr ?_
  have hprefix : Matches (charTokens "com.example.".toList) "com.example.".toList := by
    simp [Wildcards.charToken]
  exact hprefix.append (.star "Service".toList .nil)

def starTokens (pattern : List Char) : List (Token Char) :=
  pattern.map fun c => if c = '*' then .star else .one (· = c)

/-- A question mark and a slash stand for more than themselves. -/
theorem wildcards_beside_stars :
    (wildcardMatches "?" "a" = true ∧ ¬ Matches (starTokens "?".toList) "a".toList) ∧
      wildcardMatches "a/b" "a.b" = true ∧ ¬ Matches (starTokens "a/b".toList) "a.b".toList := by
  refine ⟨⟨by decide +kernel, ?_⟩, by decide +kernel, ?_⟩ <;> simp [starTokens]

end JMan.Build
