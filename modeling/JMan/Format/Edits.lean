import JMan.Lib.JavaComments
import JMan.Lib.Lines
import JMan.Lsp.Analysis
import JMan.Lsp.ProcessedSemantics
import Mathlib.Data.List.Sort
import Mathlib.Data.Prod.Lex

/-!
# JMan — edits of a Java text

`Edit` and `applyEdits` of `JavaFormatter.java`, and Java's strings as far as the formatter
uses them. Offsets count UTF-16 units; none of them stands inside of a character.

* `substring_append`, `Edit.apply_append` — offsets as the lengths of what stands before them.
-/

namespace JMan.Format

open JavaLexis
open JMan.Lsp (utf16Length lenUtf16 lenUtf16_pos utf16Length_append)
open JMan.Lsp.ProcessedSemantics (isWhitespace)

-- Strings

def splitAtUnit : Nat → Text → Text × Text
  | 0, text => ([], text)
  | _, [] => ([], [])
  | offset, c :: rest =>
    let halves := splitAtUnit (offset - lenUtf16 c) rest
    (c :: halves.1, halves.2)

/-- `source.substring(start, end)` -/
def substring (source : Text) (start stop : Nat) : Text :=
  (splitAtUnit (stop - start) (splitAtUnit start source).2).1

/-- `String.strip` -/
def strip (text : Text) : Text := Lines.trim isWhitespace text

/-- What strings are compared by: their UTF-16 units. -/
def units (text : Text) : List Nat :=
  text.flatMap fun c =>
    let n := c.toNat
    if n < 0x10000 then [n] else [0xd800 + (n - 0x10000) / 0x400, 0xdc00 + (n - 0x10000) % 0x400]

-- Edits

structure Edit where
  start : Nat
  stop : Nat
  replacement : Text
deriving DecidableEq

/-- `StringBuilder.replace` -/
def Edit.apply (edit : Edit) (source : Text) : Text :=
  (splitAtUnit edit.start source).1 ++ (edit.replacement ++ (splitAtUnit edit.stop source).2)

def Edit.place (edit : Edit) : Nat ×ₗ Nat := toLex (edit.start, edit.stop)

def applyEdits (source : Text) (edits : List Edit) : Text :=
  (edits.insertionSort fun left right => right.place ≤ left.place).foldl (fun text edit => edit.apply text) source

section Strings

variable {before text after : Text}

theorem splitAtUnit_append (before after : Text) :
    splitAtUnit (utf16Length before) (before ++ after) = (before, after) := by
  induction before with
  | nil => cases after <;> rfl
  | cons c before ih =>
    have hpos := lenUtf16_pos c
    have hlength : utf16Length (c :: before) = lenUtf16 c + utf16Length before := rfl
    have hrest : utf16Length (c :: before) - lenUtf16 c = utf16Length before := by omega
    rw [List.cons_append, splitAtUnit, hrest, ih]
    intro hzero
    omega

theorem substring_append (before text after : Text) :
    substring (before ++ (text ++ after)) (utf16Length before) (utf16Length before + utf16Length text) = text := by
  rw [substring, splitAtUnit_append, Nat.add_sub_cancel_left, splitAtUnit_append]

theorem Edit.apply_append (before text after replacement : Text) :
    (Edit.mk (utf16Length before) (utf16Length before + utf16Length text) replacement).apply
      (before ++ (text ++ after)) = before ++ (replacement ++ after) := by
  have hstop := splitAtUnit_append (before ++ text) after
  rw [utf16Length_append, List.append_assoc] at hstop
  rw [Edit.apply, splitAtUnit_append, hstop]

end Strings

end JMan.Format
