import JMan.Lib.Encoding

/-!
# Folded lines

Long lines of bytes written as several: each ends in a carriage return and a
line feed, and what continues a line starts with a space.

* `splitInclusive_folded` — the lines that a reader finds.
* `unfold_folded` — without the breaks, the line is as it was.
-/

namespace Folding

open Encoding (Bytes)

def lineEnd : Bytes := [13, 10]

/-- The lines of a text with their line ends, when the first has been read up to
here. -/
def splitFrom (line : Bytes) : Bytes → List Bytes
  | 13 :: 10 :: rest => (line ++ lineEnd) :: splitFrom [] rest
  | b :: rest => splitFrom (line ++ [b]) rest
  | [] => if line = [] then [] else [line]

/-- `split_inclusive("\r\n")` -/
def splitInclusive (text : Bytes) : List Bytes := splitFrom [] text

/-- A text without the line ends that a space follows, and without that space. -/
def unfold : Bytes → Bytes
  | 13 :: 10 :: 32 :: rest => unfold rest
  | b :: rest => b :: unfold rest
  | [] => []

/-- A line that goes on, with the parts it goes on with. -/
def continuation (more : List Bytes) : Bytes := more.flatMap fun part => 32 :: part ++ lineEnd

def folded (first : Bytes) (more : List Bytes) : Bytes := first ++ lineEnd ++ continuation more

def Unbroken (part : Bytes) : Prop := 13 ∉ part

variable {first part line rest : Bytes} {more : List Bytes}

-- One line after the other

theorem splitFrom_append (h : Unbroken part) (line : Bytes) :
    splitFrom line (part ++ lineEnd ++ rest) = (line ++ part ++ lineEnd) :: splitInclusive rest := by
  induction part generalizing line with
  | nil => simp [lineEnd, splitFrom, splitInclusive]
  | cons b part ih =>
    have hb : b ≠ 13 := fun hb => h (hb ▸ List.mem_cons_self ..)
    have hpart : Unbroken part := fun hmem => h (List.mem_cons_of_mem _ hmem)
    show splitFrom line (b :: (part ++ lineEnd ++ rest)) = _
    rw [splitFrom, ih hpart]
    · simp
    · exact fun _ hcr _ => hb hcr

theorem splitInclusive_append (h : Unbroken part) :
    splitInclusive (part ++ lineEnd ++ rest) = (part ++ lineEnd) :: splitInclusive rest := by
  rw [splitInclusive, splitFrom_append h, List.nil_append]

theorem splitInclusive_continuation (h : ∀ part ∈ more, Unbroken part) :
    splitInclusive (continuation more) = more.map fun part => 32 :: part ++ lineEnd := by
  induction more with
  | nil => simp [continuation, splitInclusive, splitFrom]
  | cons part more ih =>
    rw [List.forall_mem_cons] at h
    have hpart : Unbroken (32 :: part) := by simpa [Unbroken] using h.1
    show splitInclusive (32 :: part ++ lineEnd ++ continuation more) = _
    rw [splitInclusive_append hpart, ih h.2]
    rfl

/-- **The lines that a reader finds.** -/
theorem splitInclusive_folded (hfirst : Unbroken first) (hmore : ∀ part ∈ more, Unbroken part) :
    splitInclusive (folded first more) =
      (first ++ lineEnd) :: more.map fun part => 32 :: part ++ lineEnd := by
  rw [folded, splitInclusive_append hfirst, splitInclusive_continuation hmore]

-- Breaks removed

theorem unfold_append (h : Unbroken part) (rest : Bytes) :
    unfold (part ++ rest) = part ++ unfold rest := by
  induction part with
  | nil => rfl
  | cons b part ih =>
    have hb : b ≠ 13 := fun hb => h (hb ▸ List.mem_cons_self ..)
    have hpart : Unbroken part := fun hmem => h (List.mem_cons_of_mem _ hmem)
    show unfold (b :: (part ++ rest)) = b :: (part ++ unfold rest)
    rw [unfold, ih hpart]
    exact fun _ hcr _ => hb hcr

theorem unfold_lineEnd_continuation (h : ∀ part ∈ more, Unbroken part) :
    unfold (lineEnd ++ continuation more) = more.flatten ++ lineEnd := by
  induction more with
  | nil => rfl
  | cons part more ih =>
    rw [List.forall_mem_cons] at h
    have hbreak : lineEnd ++ continuation (part :: more) =
        13 :: 10 :: 32 :: (part ++ (lineEnd ++ continuation more)) := by
      simp [lineEnd, continuation]
    rw [hbreak, unfold, unfold_append h.1, ih h.2]
    simp

/-- **Without the breaks, the line is as it was.** -/
theorem unfold_folded (hfirst : Unbroken first) (hmore : ∀ part ∈ more, Unbroken part) :
    unfold (folded first more) = first ++ more.flatten ++ lineEnd := by
  rw [folded, List.append_assoc, unfold_append hfirst, unfold_lineEnd_continuation hmore,
    List.append_assoc]

end Folding
