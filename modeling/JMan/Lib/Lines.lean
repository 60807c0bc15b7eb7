import Mathlib.Data.List.DropRight
import Mathlib.Data.String.Basic

/-!
# Texts in lines

A text split at its line ends, and blanks removed from the ends of a text. What
is blank is a parameter.

* `lines_unlines` — lines written one under the other are read as they were.
* `trimmed_trim`, `trim_of_trimmed` — what is trimmed is trimmed once.
-/

namespace Lines

abbrev Text := List Char

-- Lines

/-- A line without the carriage return of its line end. -/
def dropReturn (line : Text) : Text :=
  if line.getLast? = some '\r' then line.dropLast else line

/-- The lines of a text, when the first has been read up to here. -/
def linesFrom (line : Text) : Text → List Text
  | [] => if line = [] then [] else [line]
  | c :: rest =>
    if c = '\n' then dropReturn line :: linesFrom [] rest else linesFrom (line ++ [c]) rest

def lines (text : Text) : List Text := linesFrom [] text

/-- Lines one under the other, each with its line end. -/
def unlines (ls : List Text) : Text := ls.flatMap (· ++ ['\n'])

/-- A line that is one, and keeps its last character when a line end follows. -/
structure IsLine (line : Text) : Prop where
  newline : '\n' ∉ line
  carriage : line.getLast? ≠ some '\r'

variable {line text rest : Text} {ls : List Text}

theorem linesFrom_append (hnewline : '\n' ∉ line) (start : Text) :
    linesFrom start (line ++ '\n' :: rest) = dropReturn (start ++ line) :: lines rest := by
  induction line generalizing start with
  | nil =>
    rw [List.nil_append, List.append_nil, linesFrom, if_pos rfl]
    rfl
  | cons c line ih =>
    have hc : c ≠ '\n' := fun h => hnewline (h ▸ List.mem_cons_self)
    rw [List.cons_append, linesFrom, if_neg hc,
      ih (fun h => hnewline (List.mem_cons_of_mem _ h)), List.append_assoc]
    rfl

theorem lines_cons (h : IsLine line) : lines (line ++ '\n' :: rest) = line :: lines rest := by
  rw [lines, linesFrom_append h.newline, List.nil_append, dropReturn, if_neg h.carriage]

/-- **Lines written one under the other are read as they were.** -/
theorem lines_unlines (h : ∀ line ∈ ls, IsLine line) : lines (unlines ls) = ls := by
  induction ls with
  | nil => rfl
  | cons line ls ih =>
    have hrest := ih fun l hl => h l (List.mem_cons_of_mem _ hl)
    unfold unlines at hrest ⊢
    rw [List.flatMap_cons, List.append_assoc, List.singleton_append,
      lines_cons (h line List.mem_cons_self), hrest]

theorem intercalate_append (line : Text) (ls : List Text) :
    ['\n'].intercalate (line :: ls) ++ ['\n'] = unlines (line :: ls) := by
  induction ls generalizing line with
  | nil => rw [List.intercalate_singleton, unlines, List.flatMap_cons, List.flatMap_nil,
      List.append_nil]
  | cons next ls ih =>
    rw [List.intercalate_cons_cons, List.append_assoc, ih]
    rfl

theorem mem_dropReturn {c : Char} (h : c ∈ dropReturn line) : c ∈ line := by
  unfold dropReturn at h
  split at h
  · exact List.dropLast_subset line h
  · exact h

theorem newline_notMem_of_mem_linesFrom {start : Text} (hstart : '\n' ∉ start)
    (h : line ∈ linesFrom start text) : '\n' ∉ line := by
  induction text generalizing start with
  | nil =>
    unfold linesFrom at h
    split at h
    · cases h
    · rw [List.mem_singleton.mp h]
      exact hstart
  | cons c rest ih =>
    unfold linesFrom at h
    split at h
    · rcases List.mem_cons.mp h with rfl | h
      · exact fun hline => hstart (mem_dropReturn hline)
      · exact ih List.not_mem_nil h
    · next hc =>
      refine ih (fun hnewline => ?_) h
      rcases List.mem_append.mp hnewline with hnewline | hnewline
      · exact hstart hnewline
      · exact hc (List.mem_singleton.mp hnewline).symm

/-- **No line has a line end in it.** -/
theorem newline_notMem_of_mem_lines (h : line ∈ lines text) : '\n' ∉ line :=
  newline_notMem_of_mem_linesFrom List.not_mem_nil h

theorem linesFrom_of_notMem (h : '\n' ∉ text) (start : Text) :
    linesFrom start text = if start ++ text = [] then [] else [start ++ text] := by
  induction text generalizing start with
  | nil => rw [linesFrom, List.append_nil]
  | cons c rest ih =>
    obtain ⟨hc, hrest⟩ := not_or.mp (mt List.mem_cons.mpr h)
    rw [linesFrom, if_neg (Ne.symm hc), ih hrest, List.append_assoc]
    rfl

/-- **A text is one line, or it starts with a line and its line end.** -/
theorem lines_cases (h : text ≠ []) : ∃ line, '\n' ∉ line ∧ ((text = line ∧ lines text = [line]) ∨
    ∃ eol rest, (eol = ['\n'] ∨ eol = ['\r', '\n']) ∧ text = line ++ (eol ++ rest) ∧
      lines text = line :: lines rest) := by
  by_cases hmem : '\n' ∈ text
  · obtain ⟨before, rest, rfl, hbefore⟩ := List.eq_append_cons_of_mem hmem
    have hlines : lines (before ++ '\n' :: rest) = dropReturn before :: lines rest :=
      linesFrom_append hbefore []
    refine ⟨dropReturn before, fun hline => hbefore (mem_dropReturn hline), .inr ?_⟩
    by_cases hreturn : before.getLast? = some '\r'
    · have hsplit : dropReturn before ++ ['\r'] = before := by
        rw [dropReturn, if_pos hreturn, List.dropLast_append_getLast? _ hreturn]
      have htext : dropReturn before ++ (['\r', '\n'] ++ rest) = before ++ '\n' :: rest := by
        nth_rewrite 2 [← hsplit]
        rw [List.append_assoc]
        rfl
      exact ⟨['\r', '\n'], rest, .inr rfl, htext.symm, hlines⟩
    · refine ⟨['\n'], rest, .inl rfl, ?_, hlines⟩
      rw [dropReturn, if_neg hreturn]
      rfl
  · refine ⟨text, hmem, .inl ⟨rfl, ?_⟩⟩
    rw [lines, linesFrom_of_notMem hmem, List.nil_append, if_neg h]

theorem piece_of_splitOn {separator : Char} {piece : Text} (h : piece ∈ text.splitOn separator) :
    separator ∉ piece ∧ piece ⊆ text := by
  induction text generalizing piece with
  | nil =>
    rw [List.splitOn_nil, List.mem_singleton] at h
    subst h
    exact ⟨List.not_mem_nil, List.Subset.refl _⟩
  | cons c rest ih =>
    rw [List.splitOn_cons_eq_if_modifyHead] at h
    split at h
    · rcases List.mem_cons.mp h with rfl | h
      · exact ⟨List.not_mem_nil, List.nil_subset _⟩
      · exact ⟨(ih h).1, List.subset_cons_of_subset _ (ih h).2⟩
    · next hc =>
      obtain ⟨first, pieces, hpieces⟩ := List.exists_cons_of_ne_nil
        (List.splitOn_ne_nil separator rest)
      rw [hpieces, List.modifyHead_cons] at h
      rcases List.mem_cons.mp h with rfl | h
      · obtain ⟨hfirst, hsub⟩ := ih (hpieces ▸ List.mem_cons_self)
        refine ⟨fun hmem => ?_, List.cons_subset_cons _ hsub⟩
        rcases List.mem_cons.mp hmem with rfl | hmem
        · exact hc (beq_self_eq_true _)
        · exact hfirst hmem
      · obtain ⟨hfirst, hsub⟩ := ih (hpieces ▸ List.mem_cons_of_mem _ h)
        exact ⟨hfirst, List.subset_cons_of_subset _ hsub⟩

-- Blanks

section Blanks

variable (blank : Char → Bool)

def trimStart (text : Text) : Text := text.dropWhile blank

def trimEnd (text : Text) : Text := text.rdropWhile blank

def trim (text : Text) : Text := trimEnd blank (trimStart blank text)

structure Trimmed (text : Text) : Prop where
  first : ∀ c ∈ text.head?, blank c = false
  last : ∀ c ∈ text.getLast?, blank c = false

variable {blank}

theorem last_trimEnd (text : Text) : ∀ c ∈ (trimEnd blank text).getLast?, blank c = false := by
  intro c hc
  obtain ⟨hne, rfl⟩ := List.mem_getLast?_eq_getLast hc
  exact Bool.eq_false_iff.mpr (List.rdropWhile_last_not blank text hne)

theorem trimEnd_of_last (h : ∀ c ∈ text.getLast?, blank c = false) : trimEnd blank text = text := by
  refine List.rdropWhile_eq_self_iff.mpr fun hne => ?_
  rw [h _ (List.getLast_mem_getLast? hne)]
  exact Bool.false_ne_true

theorem first_trimStart (text : Text) : ∀ c ∈ (trimStart blank text).head?, blank c = false := by
  intro c hc
  have hdrop := List.head?_dropWhile_not blank text
  unfold trimStart at hc
  rw [Option.mem_def.mp hc] at hdrop
  exact hdrop

theorem trimStart_of_first (h : ∀ c ∈ text.head?, blank c = false) :
    trimStart blank text = text := by
  cases text with
  | nil => rfl
  | cons c rest => exact List.dropWhile_cons_of_neg (by rw [h c rfl]; exact Bool.false_ne_true)

theorem trimEnd_isPrefix (blank : Char → Bool) (text : Text) : trimEnd blank text <+: text := List.rdropWhile_prefix _ _

theorem prefix_trimEnd {c : Char} (h : blank c = false) (text rest : Text) :
    text ++ [c] <+: trimEnd blank (text ++ c :: rest) := by
  induction rest using List.reverseRecOn with
  | nil =>
    have hlast : ∀ last ∈ (text ++ [c]).getLast?, blank last = false := by
      intro last hlast
      rw [List.getLast?_append] at hlast
      cases hlast
      exact h
    exact (trimEnd_of_last hlast).symm ▸ List.prefix_refl _
  | append_singleton rest last ih =>
    rw [← List.cons_append, ← List.append_assoc, trimEnd, List.rdropWhile_concat]
    split
    · exact ih
    · exact ⟨rest ++ [last], by simp⟩

theorem trimStart_isSuffix (blank : Char → Bool) (text : Text) : trimStart blank text <:+ text := List.dropWhile_suffix _

theorem trim_isInfix (blank : Char → Bool) (text : Text) : trim blank text <:+: text :=
  (trimEnd_isPrefix _ _).isInfix.trans (trimStart_isSuffix _ text).isInfix

theorem trimmed_trim (text : Text) : Trimmed blank (trim blank text) where
  first := by
    intro c hc
    refine first_trimStart text c ?_
    obtain ⟨rest, hrest⟩ := trimEnd_isPrefix blank (trimStart blank text)
    have hhead : (trimEnd blank (trimStart blank text)).head? = some c := hc
    rw [← hrest, List.head?_append, hhead]
    rfl
  last := last_trimEnd _

theorem trim_of_trimmed (h : Trimmed blank text) : trim blank text = text := by
  rw [trim, trimStart_of_first h.first, trimEnd_of_last h.last]

theorem Trimmed.isLine (h : Trimmed blank line) (hnewline : '\n' ∉ line)
    (hblank : blank '\r' = true) : IsLine line := by
  refine ⟨hnewline, fun hlast => ?_⟩
  rw [h.last _ hlast] at hblank
  cases hblank

end Blanks

end Lines
