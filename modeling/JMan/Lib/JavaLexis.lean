import Mathlib.Data.List.Infix

/-!
# Java's lexical structure

White space, comments and tokens, and what texts a list of tokens is spelled by. Unicode
escapes are translated before. Which characters are parts of identifiers is a parameter.

* `Gap` — what stands between two tokens.
* `Spelled` — a text with these tokens, each behind its gap.
* `Balanced` — brackets in pairs; which `<` and `>` are brackets and which are operators is
  said by the marks of the tokens.
-/

namespace JavaLexis

abbrev Text := List Char

-- Between tokens

/-- A carriage return or a line feed, or the first character of both. -/
def IsLineEnd (c : Char) : Prop := c = '\n' ∨ c = '\r'

def IsBlank (c : Char) : Prop := c = ' ' ∨ c = '\t' ∨ c = '\x0c' ∨ IsLineEnd c

instance (c : Char) : Decidable (IsLineEnd c) := inferInstanceAs (Decidable (_ ∨ _))

instance (c : Char) : Decidable (IsBlank c) := inferInstanceAs (Decidable (_ ∨ _))

/-- White space and comments. A comment to the end of the line has the line end. -/
inductive Gap : Text → Prop
  | nil : Gap []
  | blank {c : Char} {rest : Text} (hc : IsBlank c) (hrest : Gap rest) : Gap (c :: rest)
  | line {body rest : Text} {c : Char} (hbody : ∀ d ∈ body, ¬ IsLineEnd d) (hc : IsLineEnd c)
      (hrest : Gap rest) : Gap ('/' :: '/' :: (body ++ c :: rest))
  | block {body rest : Text} (hbody : ¬ ['*', '/'] <:+: body ++ ['*']) (hrest : Gap rest) :
      Gap ('/' :: '*' :: (body ++ '*' :: '/' :: rest))

-- Tokens

/-- What stands between two quotes, on one line. -/
inductive Quoted (quote : Char) : Text → Prop
  | nil : Quoted quote []
  | plain {c : Char} {rest : Text} (hquote : c ≠ quote) (hescape : c ≠ '\\') (hline : ¬ IsLineEnd c)
      (hrest : Quoted quote rest) : Quoted quote (c :: rest)
  | escape {c : Char} {rest : Text} (hline : ¬ IsLineEnd c) (hrest : Quoted quote rest) :
      Quoted quote ('\\' :: c :: rest)

/-- What stands in a text block: no three quotes in a row but with an escape. -/
inductive BlockQuoted : Text → Prop
  | nil : BlockQuoted []
  | plain {c : Char} {rest : Text} (hquote : c ≠ '"') (hescape : c ≠ '\\') (hrest : BlockQuoted rest) :
      BlockQuoted (c :: rest)
  | escape {c : Char} {rest : Text} (hrest : BlockQuoted rest) : BlockQuoted ('\\' :: c :: rest)
  | quote {rest : Text} (hlast : rest ≠ []) (htwo : ¬ ['"', '"'] <+: rest) (hrest : BlockQuoted rest) :
      BlockQuoted ('"' :: rest)

def textBlockQuote : Text := ['"', '"', '"']

section Tokens

variable (isPart : Char → Bool)

/-- A token. Identifiers, keywords and numbers are words, operators come one character
at a time. -/
inductive IsToken : Text → Prop
  | word {text : Text} (hne : text ≠ []) (hpart : ∀ c ∈ text, isPart c) : IsToken text
  | symbol {c : Char} (hpart : isPart c = false) (hblank : ¬ IsBlank c) (hquote : c ≠ '"' ∧ c ≠ '\'') :
      IsToken [c]
  | string {body : Text} (hbody : Quoted '"' body) : IsToken ('"' :: (body ++ ['"']))
  | character {body : Text} (hne : body ≠ []) (hbody : Quoted '\'' body) :
      IsToken ('\'' :: (body ++ ['\'']))
  | textBlock {body : Text} (hbody : BlockQuoted body) :
      IsToken (textBlockQuote ++ (body ++ textBlockQuote))

/-- A token ends where it does, and what follows does not make it another one. -/
structure Ends (token rest : Text) : Prop where
  word : ∀ a ∈ token.getLast?, ∀ b ∈ rest.head?, ¬ (isPart a ∧ isPart b)
  slash : token = ['/'] → ∀ b ∈ rest.head?, b ≠ '/' ∧ b ≠ '*'
  empty : token = ['"', '"'] → ∀ b ∈ rest.head?, b ≠ '"'

def endsAt (token rest : Text) : Bool :=
  match token.getLast?, rest.head? with
  | some a, some b =>
    !(isPart a && isPart b) && (token != ['/'] || b != '/' && b != '*') && (token != ['"', '"'] || b != '"')
  | _, _ => true

/-- A text with these tokens, each behind its gap, and then something else. -/
inductive Spelled (after : Text) : List Text → Text → Prop
  | nil : Spelled after [] after
  | cons {gap token rest : Text} {tokens : List Text} (hgap : Gap gap) (htoken : IsToken isPart token)
      (hends : Ends isPart token rest) (hrest : Spelled after tokens rest) :
      Spelled after (token :: tokens) (gap ++ (token ++ rest))

/-- What stands behind the last token of a file: a gap, and a comment that the file ends in. -/
def IsTail (text : Text) : Prop :=
  Gap text ∨ ∃ gap body, text = gap ++ '/' :: '/' :: body ∧ Gap gap ∧ ∀ c ∈ body, ¬ IsLineEnd c

variable {isPart} {token text after : Text} {tokens : List Text}

theorem IsToken.ne_nil (h : IsToken isPart token) : token ≠ [] := by
  cases h with
  | word hne _ => exact hne
  | symbol _ _ _ => exact List.cons_ne_nil _ _
  | string _ => exact List.cons_ne_nil _ _
  | character _ _ => exact List.cons_ne_nil _ _
  | textBlock _ => exact List.cons_ne_nil _ _

theorem IsToken.of_all (hne : token ≠ []) (hpart : token.all isPart = true) : IsToken isPart token :=
  .word hne (List.all_eq_true.mp hpart)

theorem Ends.of_endsAt {rest : Text} (h : endsAt isPart token rest = true) : Ends isPart token rest := by
  cases htoken : token.getLast? with
  | none =>
    obtain rfl := List.getLast?_eq_none_iff.mp htoken
    exact ⟨fun a ha => absurd ha (Option.not_mem_none a), fun hslash => absurd hslash.symm (List.cons_ne_nil _ _),
      fun hempty => absurd hempty.symm (List.cons_ne_nil _ _)⟩
  | some a =>
    cases hrest : rest.head? with
    | none =>
      have hnone (b : Char) : b ∉ rest.head? := by
        rw [hrest]
        exact Option.not_mem_none b
      exact ⟨fun _ _ b hb => absurd hb (hnone b), fun _ b hb => absurd hb (hnone b), fun _ b hb => absurd hb (hnone b)⟩
    | some b =>
      rw [endsAt, htoken, hrest] at h
      simp only [Bool.and_eq_true, Bool.not_eq_true', Bool.and_eq_false_iff, Bool.or_eq_true, bne_iff_ne] at h
      obtain ⟨⟨hword, hslash⟩, hempty⟩ := h
      refine ⟨fun c hc d hd hboth => ?_, fun heq d hd => ?_, fun heq d hd => ?_⟩
      · obtain rfl := Option.some.inj (htoken.symm.trans hc)
        obtain rfl := Option.some.inj (hrest.symm.trans hd)
        obtain hpart | hpart := hword
        · exact Bool.false_ne_true (hpart.symm.trans hboth.1)
        · exact Bool.false_ne_true (hpart.symm.trans hboth.2)
      · obtain rfl := Option.some.inj (hrest.symm.trans hd)
        exact hslash.resolve_left (absurd heq)
      · obtain rfl := Option.some.inj (hrest.symm.trans hd)
        exact hempty.resolve_left (absurd heq)

theorem Spelled.ne_nil (h : Spelled isPart after tokens text) (hne : tokens ≠ []) : text ≠ [] := by
  cases h with
  | nil => exact absurd rfl hne
  | cons _ htoken _ _ =>
    intro hempty
    obtain ⟨-, hrest⟩ := List.append_eq_nil_iff.mp hempty
    exact htoken.ne_nil (List.append_eq_nil_iff.mp hrest).1

end Tokens

-- Brackets

inductive Bracket where
  | round
  | square
  | curly
  | angle
deriving DecidableEq

def Bracket.opening : Bracket → Char
  | .round => '('
  | .square => '['
  | .curly => '\x7b'
  | .angle => '<'

def Bracket.closing : Bracket → Char
  | .round => ')'
  | .square => ']'
  | .curly => '\x7d'
  | .angle => '>'

/-- What a token does: an angle is a bracket around types, or part of an operator. -/
inductive Mark where
  | opening (bracket : Bracket)
  | closing (bracket : Bracket)
  | comma
  | other
deriving DecidableEq

/-- The characters that are nothing but brackets and commas. -/
def punctuation : List Char := ['(', ')', '[', ']', '\x7b', '\x7d', ',']

def Mark.Fits (mark : Mark) (token : Text) : Prop :=
  match mark with
  | .opening bracket => token = [bracket.opening]
  | .closing bracket => token = [bracket.closing]
  | .comma => token = [',']
  | .other => ∀ c ∈ punctuation, token ≠ [c]

/-- Brackets in pairs, and commas only inside of them at the top. -/
inductive Balanced : (top : Bool) → List Mark → Prop
  | nil {top : Bool} : Balanced top []
  | other {top : Bool} {marks : List Mark} (h : Balanced top marks) : Balanced top (.other :: marks)
  | comma {marks : List Mark} (h : Balanced false marks) : Balanced false (.comma :: marks)
  | group {top : Bool} {inner marks : List Mark} (bracket : Bracket) (hinner : Balanced false inner)
      (h : Balanced top marks) : Balanced top (.opening bracket :: (inner ++ .closing bracket :: marks))

/-- The tokens between two commas: an argument or a parameter, with the gap behind it. -/
structure Argument (isPart : Char → Bool) where
  text : Text
  tokens : List Text
  marks : List Mark
  gap : Text
  isGap : Gap gap
  spelled : Spelled isPart gap tokens text
  fits : List.Forall₂ Mark.Fits marks tokens
  balanced : Balanced true marks
  nonempty : tokens ≠ []

end JavaLexis
