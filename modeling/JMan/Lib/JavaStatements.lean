import JMan.Lib.JavaLexis

/-!
# Java's statements

Blocks, labels, conditionals and loops around simple statements, and the parser that reads
them from tokens. An `else` belongs to the nearest `if` that has none.

* `Tree.parse_tokens` — the tokens of a tree are read as this tree, whatever follows them.
* `Tree.parseStatement_tokens` — and so they are by the parser of whole statements.
-/

namespace JavaStatements

abbrev Token := List Char

inductive Level where
  | statement
  | statements

/-- A statement, or the statements of a block, with something for each token. Loops with
the condition in front are `while` and both kinds of `for`. -/
inductive Tree (α : Type) : Level → Type
  | simple (tokens : List α) : Tree α .statement
  | block (opening : α) (body : Tree α .statements) (closing : α) : Tree α .statement
  | labeled (label colon : α) (body : Tree α .statement) : Tree α .statement
  | ifThen (keyword : α) (condition : List α) (thenPart : Tree α .statement) : Tree α .statement
  | ifElse (keyword : α) (condition : List α) (thenPart : Tree α .statement) (elseKeyword : α)
      (elsePart : Tree α .statement) : Tree α .statement
  | loop (keyword : α) (header : List α) (body : Tree α .statement) : Tree α .statement
  | doWhile (keyword : α) (body : Tree α .statement) (tail : List α) : Tree α .statement
  | nil : Tree α .statements
  | cons (first : Tree α .statement) (rest : Tree α .statements) : Tree α .statements

namespace Tree

section Shape

variable {α β : Type} {level : Level}

def tokens {level : Level} : Tree α level → List α
  | .simple tokens => tokens
  | .block opening body closing => opening :: (body.tokens ++ [closing])
  | .labeled label colon body => label :: colon :: body.tokens
  | .ifThen keyword condition thenPart => keyword :: (condition ++ thenPart.tokens)
  | .ifElse keyword condition thenPart elseKeyword elsePart =>
    keyword :: (condition ++ (thenPart.tokens ++ elseKeyword :: elsePart.tokens))
  | .loop keyword header body => keyword :: (header ++ body.tokens)
  | .doWhile keyword body tail => keyword :: (body.tokens ++ tail)
  | .nil => []
  | .cons first rest => first.tokens ++ rest.tokens

def map (f : α → β) {level : Level} : Tree α level → Tree β level
  | .simple tokens => .simple (tokens.map f)
  | .block opening body closing => .block (f opening) (body.map f) (f closing)
  | .labeled label colon body => .labeled (f label) (f colon) (body.map f)
  | .ifThen keyword condition thenPart => .ifThen (f keyword) (condition.map f) (thenPart.map f)
  | .ifElse keyword condition thenPart elseKeyword elsePart =>
    .ifElse (f keyword) (condition.map f) (thenPart.map f) (f elseKeyword) (elsePart.map f)
  | .loop keyword header body => .loop (f keyword) (header.map f) (body.map f)
  | .doWhile keyword body tail => .doWhile (f keyword) (body.map f) (tail.map f)
  | .nil => .nil
  | .cons first rest => .cons (first.map f) (rest.map f)

def height {level : Level} : Tree α level → Nat
  | .simple _ => 1
  | .block _ body _ => body.height + 1
  | .labeled _ _ body => body.height + 1
  | .ifThen _ _ thenPart => thenPart.height + 1
  | .ifElse _ _ thenPart _ elsePart => max thenPart.height elsePart.height + 1
  | .loop _ _ body => body.height + 1
  | .doWhile _ body _ => body.height + 1
  | .nil => 1
  | .cons first rest => max first.height rest.height + 1

def isBlock {level : Level} : Tree α level → Bool
  | .block _ _ _ => true
  | _ => false

def isIf {level : Level} : Tree α level → Bool
  | .ifThen _ _ _ => true
  | .ifElse _ _ _ _ _ => true
  | _ => false

/-- An `else` behind this statement would be read as a part of it. -/
def endsShort {level : Level} : Tree α level → Bool
  | .labeled _ _ body => body.endsShort
  | .ifThen _ _ _ => true
  | .ifElse _ _ _ _ elsePart => elsePart.endsShort
  | .loop _ _ body => body.endsShort
  | _ => false

@[simp] theorem tokens_map (f : α → β) (tree : Tree α level) : (tree.map f).tokens = tree.tokens.map f := by
  induction tree with
  | simple tokens => rfl
  | nil => rfl
  | block opening body closing ih => simp [map, tokens, ih]
  | labeled label colon body ih => simp [map, tokens, ih]
  | ifThen keyword condition thenPart ih => simp [map, tokens, ih]
  | ifElse keyword condition thenPart elseKeyword elsePart ihThen ihElse => simp [map, tokens, ihThen, ihElse]
  | loop keyword header body ih => simp [map, tokens, ih]
  | doWhile keyword body tail ih => simp [map, tokens, ih]
  | cons first rest ihFirst ihRest => simp [map, tokens, ihFirst, ihRest]

end Shape

end Tree

-- Brackets

def semicolon : Token := [';']

def isOpening (token : Token) : Bool := [['('], ['['], ['\x7b']].contains token

def isClosing (token : Token) : Bool := [[')'], [']'], ['\x7d']].contains token

/-- Brackets in pairs, and semicolons only inside of them at the top. -/
inductive Nested : (top : Bool) → List Token → Prop
  | nil {top : Bool} : Nested top []
  | other {top : Bool} {token : Token} {tokens : List Token} (hopening : isOpening token = false)
      (hclosing : isClosing token = false) (htop : top = true → token ≠ semicolon) (h : Nested top tokens) :
      Nested top (token :: tokens)
  | group {top : Bool} {opening closing : Token} {inner tokens : List Token} (hopening : isOpening opening = true)
      (hclosing : isClosing closing = true) (hinner : Nested false inner) (h : Nested top tokens) :
      Nested top (opening :: (inner ++ closing :: tokens))

def IsGroup (tokens : List Token) : Prop :=
  ∃ inner, tokens = ['('] :: (inner ++ [[')']]) ∧ Nested false inner

/-- The tokens to the bracket that closes the first one. -/
def readGroup (depth : Nat) : List Token → Option (List Token × List Token)
  | [] => none
  | token :: tokens =>
    if isOpening token then (readGroup (depth + 1) tokens).map fun read => (token :: read.1, read.2)
    else if isClosing token then
      if depth ≤ 1 then some ([token], tokens)
      else (readGroup (depth - 1) tokens).map fun read => (token :: read.1, read.2)
    else (readGroup depth tokens).map fun read => (token :: read.1, read.2)

def depthBehind (depth : Nat) (token : Token) : Nat :=
  if isOpening token then depth + 1 else if isClosing token then depth - 1 else depth

/-- The tokens to the first semicolon outside of brackets. -/
def readSimple (depth : Nat) : List Token → Option (List Token × List Token)
  | [] => none
  | token :: tokens =>
    if token = semicolon ∧ depth = 0 then some ([token], tokens)
    else (readSimple (depthBehind depth token) tokens).map fun read => (token :: read.1, read.2)

section Reading

variable {top : Bool} {depth : Nat} {tokens rest : List Token}

theorem not_isClosing_of_isOpening {token : Token} (h : isOpening token = true) : isClosing token = false := by
  unfold isOpening at h
  rcases List.mem_cons.mp (List.contains_iff_mem.mp h) with rfl | h
  · decide
  · rcases List.mem_cons.mp h with rfl | h
    · decide
    · rw [List.mem_singleton.mp h]
      decide

theorem not_isOpening_of_isClosing {token : Token} (h : isClosing token = true) : isOpening token = false := by
  cases hopening : isOpening token with
  | false => rfl
  | true => exact absurd h (Bool.eq_false_iff.mp (not_isClosing_of_isOpening hopening))

theorem readGroup_nested (h : Nested top tokens) (depth : Nat) (rest : List Token) :
    readGroup (depth + 1) (tokens ++ rest) =
      (readGroup (depth + 1) rest).map fun read => (tokens ++ read.1, read.2) := by
  induction h generalizing depth rest with
  | nil => exact (Option.map_id' ..).symm
  | @other _ token tokens hopening hclosing _ _ ih =>
    rw [List.cons_append, readGroup, if_neg (by rw [hopening]; exact Bool.false_ne_true),
      if_neg (by rw [hclosing]; exact Bool.false_ne_true), ih, Option.map_map]
    rfl
  | @group _ opening closing inner tokens hopening hclosing _ _ ihInner ih =>
    rw [List.cons_append, List.append_assoc, List.cons_append, readGroup, if_pos hopening, ihInner, readGroup,
      if_neg (by rw [not_isOpening_of_isClosing hclosing]; exact Bool.false_ne_true), if_pos hclosing,
      if_neg (by omega), Nat.add_sub_cancel, ih, Option.map_map, Option.map_map, Option.map_map]
    congr 1
    funext read
    simp

theorem readGroup_group (h : IsGroup tokens) (rest : List Token) :
    readGroup 0 (tokens ++ rest) = some (tokens, rest) := by
  obtain ⟨inner, rfl, hinner⟩ := h
  rw [List.cons_append, List.append_assoc, readGroup, if_pos (by decide), readGroup_nested hinner, List.singleton_append,
    readGroup, if_neg (by decide), if_pos (by decide), if_pos (Nat.le_refl 1)]
  rfl

theorem readSimple_nested (h : Nested top tokens) (depth : Nat) (hdepth : depth = 0 → top = true)
    (rest : List Token) :
    readSimple depth (tokens ++ rest) = (readSimple depth rest).map fun read => (tokens ++ read.1, read.2) := by
  induction h generalizing depth rest with
  | nil => exact (Option.map_id' ..).symm
  | @other _ token tokens hopening hclosing htop _ ih =>
    have hbehind : depthBehind depth token = depth := by
      rw [depthBehind, hopening, hclosing, if_neg Bool.false_ne_true, if_neg Bool.false_ne_true]
    rw [List.cons_append, readSimple, if_neg fun hend => htop (hdepth hend.2) hend.1, hbehind, ih _ hdepth,
      Option.map_map]
    rfl
  | @group _ opening closing inner tokens hopening hclosing _ _ ihInner ih =>
    have hsemicolon : isOpening semicolon = false ∧ isClosing semicolon = false := by decide
    have hopen : ¬ (opening = semicolon ∧ depth = 0) := by
      rintro ⟨rfl, -⟩
      exact absurd hopening (Bool.eq_false_iff.mp hsemicolon.1)
    have hclose : ¬ (closing = semicolon ∧ depth + 1 = 0) := fun hend => absurd hend.2 (Nat.succ_ne_zero _)
    have hinside : depthBehind depth opening = depth + 1 := if_pos hopening
    have hbehind : depthBehind (depth + 1) closing = depth := by
      rw [depthBehind, not_isOpening_of_isClosing hclosing, if_neg Bool.false_ne_true, if_pos hclosing,
        Nat.add_sub_cancel]
    rw [List.cons_append, List.append_assoc, List.cons_append, readSimple, if_neg hopen, hinside,
      ihInner _ fun hzero => absurd hzero (Nat.succ_ne_zero _), readSimple, if_neg hclose, hbehind, ih _ hdepth,
      Option.map_map, Option.map_map, Option.map_map]
    congr 1
    funext read
    simp

theorem IsGroup.nested (h : IsGroup tokens) : Nested top tokens := by
  obtain ⟨inner, rfl, hinner⟩ := h
  exact .group (by decide) (by decide) hinner .nil

theorem readSimple_statement (h : Nested true tokens) (rest : List Token) :
    readSimple 0 (tokens ++ [semicolon] ++ rest) = some (tokens ++ [semicolon], rest) := by
  rw [List.append_assoc, readSimple_nested h 0 fun _ => rfl, List.singleton_append, readSimple,
    if_pos ⟨rfl, rfl⟩, Option.map_some]

end Reading

-- Grammar and parser

/-- What no simple statement and no label begins with. -/
def reserved : List Token :=
  [['\x7b'], ['\x7d'], "if".toList, "while".toList, "for".toList, "do".toList, "else".toList]

namespace Tree

variable {level : Level}

/-- The grammar of statements: what stands before an `else` does not end in an `if` without. -/
def Valid {level : Level} : Tree Token level → Prop
  | .simple tokens =>
    (∃ inner, tokens = inner ++ [semicolon] ∧ Nested true inner) ∧
      (∀ token ∈ tokens.head?, token ∉ reserved) ∧ tokens.tail.head? ≠ some [':']
  | .block opening body closing => opening = ['\x7b'] ∧ body.Valid ∧ closing = ['\x7d']
  | .labeled label colon body => label ∉ semicolon :: reserved ∧ colon = [':'] ∧ body.Valid
  | .ifThen keyword condition thenPart => keyword = "if".toList ∧ IsGroup condition ∧ thenPart.Valid
  | .ifElse keyword condition thenPart elseKeyword elsePart =>
    keyword = "if".toList ∧ IsGroup condition ∧ thenPart.Valid ∧ thenPart.endsShort = false ∧
      elseKeyword = "else".toList ∧ elsePart.Valid
  | .loop keyword header body => (keyword = "while".toList ∨ keyword = "for".toList) ∧ IsGroup header ∧ body.Valid
  | .doWhile keyword body tail =>
    keyword = "do".toList ∧ body.Valid ∧
      ∃ condition, tail = "while".toList :: (condition ++ [semicolon]) ∧ IsGroup condition
  | .nil => True
  | .cons first rest => first.Valid ∧ rest.Valid

end Tree

/-- The parser, with a bound on the depth of what it reads. -/
def parse : Nat → (level : Level) → List Token → Option (Tree Token level × List Token)
  | 0, _, _ => none
  | fuel + 1, .statements, tokens =>
    if tokens.head? = none ∨ tokens.head? = some ['\x7d'] then some (.nil, tokens)
    else do
      let first ← parse fuel .statement tokens
      let rest ← parse fuel .statements first.2
      some (.cons first.1 rest.1, rest.2)
  | _ + 1, .statement, [] => none
  | fuel + 1, .statement, token :: tokens =>
    if token = ['\x7b'] then do
      let body ← parse fuel .statements tokens
      if body.2.head? = some ['\x7d'] then some (.block token body.1 ['\x7d'], body.2.tail) else none
    else if token = "if".toList then do
      let condition ← readGroup 0 tokens
      let thenPart ← parse fuel .statement condition.2
      if thenPart.2.head? = some "else".toList then do
        let elsePart ← parse fuel .statement thenPart.2.tail
        some (.ifElse token condition.1 thenPart.1 "else".toList elsePart.1, elsePart.2)
      else some (.ifThen token condition.1 thenPart.1, thenPart.2)
    else if token = "while".toList ∨ token = "for".toList then do
      let header ← readGroup 0 tokens
      let body ← parse fuel .statement header.2
      some (.loop token header.1 body.1, body.2)
    else if token = "do".toList then do
      let body ← parse fuel .statement tokens
      if body.2.head? = some "while".toList then do
        let tail ← readSimple 0 body.2
        some (.doWhile token body.1 tail.1, tail.2)
      else none
    else if token ≠ semicolon ∧ tokens.head? = some [':'] then do
      let body ← parse fuel .statement tokens.tail
      some (.labeled token [':'] body.1, body.2)
    else do
      let simple ← readSimple 0 (token :: tokens)
      some (.simple simple.1, simple.2)

def parseStatement (tokens : List Token) : Option (Tree Token .statement × List Token) :=
  parse tokens.length .statement tokens

namespace Tree

variable {level : Level} {tree : Tree Token level} {rest : List Token} {fuel : Nat}

/-- What may stand behind a tree, so that it ends there. -/
def Follows {level : Level} (tree : Tree Token level) (rest : List Token) : Prop :=
  match level with
  | .statement => tree.endsShort = true → rest.head? ≠ some "else".toList
  | .statements => rest.head? = none ∨ rest.head? = some ['\x7d']

theorem exists_cons {statement : Tree Token .statement} (h : statement.Valid) :
    ∃ token tokens, statement.tokens = token :: tokens ∧ token ≠ "else".toList ∧ token ≠ ['\x7d'] := by
  cases statement with
  | simple tokens =>
    obtain ⟨⟨inner, rfl, -⟩, hfirst, -⟩ := h
    cases inner with
    | nil => exact ⟨semicolon, [], rfl, by decide, by decide⟩
    | cons token inner =>
      have htoken := hfirst token rfl
      exact ⟨token, inner ++ [semicolon], rfl, fun h => htoken (h ▸ by decide), fun h => htoken (h ▸ by decide)⟩
  | block opening body closing => exact ⟨_, _, rfl, h.1 ▸ by decide, h.1 ▸ by decide⟩
  | labeled label colon body =>
    exact ⟨_, _, rfl, fun hlabel => h.1 (hlabel ▸ by decide), fun hlabel => h.1 (hlabel ▸ by decide)⟩
  | ifThen keyword condition thenPart => exact ⟨_, _, rfl, h.1 ▸ by decide, h.1 ▸ by decide⟩
  | ifElse keyword condition thenPart elseKeyword elsePart => exact ⟨_, _, rfl, h.1 ▸ by decide, h.1 ▸ by decide⟩
  | loop keyword header body =>
    rcases h.1 with rfl | rfl
    · exact ⟨_, _, rfl, by decide, by decide⟩
    · exact ⟨_, _, rfl, by decide, by decide⟩
  | doWhile keyword body tail => exact ⟨_, _, rfl, h.1 ▸ by decide, h.1 ▸ by decide⟩

theorem head_ne_else {statements : Tree Token .statements} (h : statements.Valid) (hrest : Follows statements rest) :
    (statements.tokens ++ rest).head? ≠ some "else".toList := by
  cases statements with
  | nil =>
    intro helse
    rcases hrest with hnone | hclosing
    · exact absurd (hnone.symm.trans helse) (by decide)
    · exact absurd (hclosing.symm.trans helse) (by decide)
  | cons first later =>
    obtain ⟨token, tokens, htokens, helse, -⟩ := exists_cons h.1
    rw [Tree.tokens, htokens]
    exact fun hhead => helse (Option.some.inj hhead)

theorem parse_simple {tokens : List Token} (h : (Tree.simple tokens).Valid) (rest : List Token) :
    parse (fuel + 1) .statement (tokens ++ rest) = some (.simple tokens, rest) := by
  obtain ⟨⟨inner, htokens, hnested⟩, hfirst, hcolon⟩ := h
  have hread := readSimple_statement hnested rest
  rw [← htokens] at hread
  cases tokens with
  | nil => exact absurd htokens.symm (List.append_ne_nil_of_right_ne_nil _ (List.cons_ne_nil _ _))
  | cons token tokens =>
    have hreserved := hfirst token rfl
    have hne : ∀ other ∈ reserved, token ≠ other := fun other hother heq => hreserved (heq ▸ hother)
    have hbehind : ¬ (token ≠ semicolon ∧ (tokens ++ rest).head? = some [':']) := by
      rintro ⟨hsemicolon, hhead⟩
      cases tokens with
      | nil =>
        cases inner with
        | nil => exact hsemicolon (List.cons.inj htokens).1
        | cons other inner => exact absurd (List.cons.inj htokens).2.symm (List.append_ne_nil_of_right_ne_nil _ (List.cons_ne_nil _ _))
      | cons next tokens => exact hcolon hhead
    rw [List.cons_append] at hread ⊢
    rw [parse, if_neg (hne _ (by decide)), if_neg (hne _ (by decide)),
      if_neg (not_or.mpr ⟨hne _ (by decide), hne _ (by decide)⟩), if_neg (hne _ (by decide)), if_neg hbehind, hread]
    rfl

/-- **The tokens of a tree are read as this tree.** -/
theorem parse_tokens (h : tree.Valid) (hfuel : tree.height ≤ fuel) (hfollows : tree.Follows rest) :
    parse fuel level (tree.tokens ++ rest) = some (tree, rest) := by
  induction tree generalizing fuel rest with
  | simple tokens =>
    obtain ⟨fuel, rfl⟩ := Nat.exists_eq_add_of_le' hfuel
    exact parse_simple h rest
  | block opening body closing ih =>
    obtain ⟨rfl, hbody, rfl⟩ := h
    obtain ⟨fuel, rfl⟩ := Nat.exists_eq_add_of_le' (Nat.le_of_add_left_le hfuel)
    have hread := @ih (['\x7d'] :: rest) fuel hbody (Nat.le_of_succ_le_succ hfuel) (.inr rfl)
    rw [tokens, List.cons_append, List.append_assoc, List.singleton_append, parse, if_pos rfl, hread]
    rfl
  | labeled label colon body ih =>
    obtain ⟨hlabel, rfl, hbody⟩ := h
    obtain ⟨fuel, rfl⟩ := Nat.exists_eq_add_of_le' (Nat.le_of_add_left_le hfuel)
    have hne : ∀ other ∈ semicolon :: reserved, label ≠ other := fun other hother heq => hlabel (heq ▸ hother)
    rw [tokens, List.cons_append, List.cons_append, parse, if_neg (hne _ (by decide)), if_neg (hne _ (by decide)),
      if_neg (not_or.mpr ⟨hne _ (by decide), hne _ (by decide)⟩), if_neg (hne _ (by decide)),
      if_pos ⟨hne _ (by decide), rfl⟩, List.tail_cons, ih hbody (Nat.le_of_succ_le_succ hfuel) hfollows]
    rfl
  | ifThen keyword condition thenPart ih =>
    obtain ⟨rfl, hcondition, hthen⟩ := h
    obtain ⟨fuel, rfl⟩ := Nat.exists_eq_add_of_le' (Nat.le_of_add_left_le hfuel)
    have hread := ih hthen (Nat.le_of_succ_le_succ hfuel) fun _ => hfollows rfl
    rw [tokens, List.cons_append, List.append_assoc, parse, if_neg (by decide), if_pos rfl, readGroup_group hcondition]
    simp only [Option.bind_eq_bind, Option.bind_some, hread]
    rw [if_neg (hfollows rfl)]
  | ifElse keyword condition thenPart elseKeyword elsePart ihThen ihElse =>
    obtain ⟨rfl, hcondition, hthen, hshort, rfl, helse⟩ := h
    obtain ⟨fuel, rfl⟩ := Nat.exists_eq_add_of_le' (Nat.le_of_add_left_le hfuel)
    have hheights := Nat.max_le.mp (Nat.le_of_succ_le_succ hfuel)
    have hreadThen := @ihThen ("else".toList :: (elsePart.tokens ++ rest)) fuel hthen hheights.1
      fun hends => absurd hends (Bool.eq_false_iff.mp hshort)
    have hreadElse := ihElse helse hheights.2 hfollows
    rw [tokens, List.cons_append, List.append_assoc, List.append_assoc, List.cons_append, parse, if_neg (by decide),
      if_pos rfl, readGroup_group hcondition]
    simp only [Option.bind_eq_bind, Option.bind_some, hreadThen]
    rw [if_pos List.head?_cons, List.tail_cons, hreadElse, Option.bind_some]
  | loop keyword header body ih =>
    obtain ⟨hkeyword, hheader, hbody⟩ := h
    obtain ⟨fuel, rfl⟩ := Nat.exists_eq_add_of_le' (Nat.le_of_add_left_le hfuel)
    have hread := ih hbody (Nat.le_of_succ_le_succ hfuel) hfollows
    have hbrace : keyword ≠ ['\x7b'] ∧ keyword ≠ "if".toList := by
      rcases hkeyword with rfl | rfl <;> decide
    rw [tokens, List.cons_append, List.append_assoc, parse, if_neg hbrace.1, if_neg hbrace.2, if_pos hkeyword,
      readGroup_group hheader]
    simp only [Option.bind_eq_bind, Option.bind_some, hread]
  | doWhile keyword body tail ih =>
    obtain ⟨rfl, hbody, condition, rfl, hcondition⟩ := h
    obtain ⟨fuel, rfl⟩ := Nat.exists_eq_add_of_le' (Nat.le_of_add_left_le hfuel)
    have hread := @ih ("while".toList :: (condition ++ [semicolon] ++ rest)) fuel hbody (Nat.le_of_succ_le_succ hfuel)
      fun _ hhead => absurd (Option.some.inj hhead) (by decide)
    have htail : Nested true ("while".toList :: condition) :=
      .other (by decide) (by decide) (fun _ => by decide) hcondition.nested
    have hreadTail : readSimple 0 ("while".toList :: (condition ++ [semicolon] ++ rest)) =
        some ("while".toList :: (condition ++ [semicolon]), rest) := readSimple_statement htail rest
    rw [tokens, List.cons_append, List.append_assoc, List.cons_append, parse, if_neg (by decide), if_neg (by decide),
      if_neg (by decide), if_pos rfl, hread]
    simp only [Option.bind_eq_bind, Option.bind_some]
    rw [if_pos List.head?_cons, hreadTail, Option.bind_some]
  | nil =>
    obtain ⟨fuel, rfl⟩ := Nat.exists_eq_add_of_le' hfuel
    exact if_pos hfollows
  | cons first later ihFirst ihLater =>
    obtain ⟨fuel, rfl⟩ := Nat.exists_eq_add_of_le' (Nat.le_of_add_left_le hfuel)
    have hheights := Nat.max_le.mp (Nat.le_of_succ_le_succ hfuel)
    have hreadFirst := @ihFirst (later.tokens ++ rest) fuel h.1 hheights.1 fun _ => head_ne_else h.2 hfollows
    have hreadLater := ihLater h.2 hheights.2 hfollows
    obtain ⟨token, more, htokens, -, hclosing⟩ := exists_cons h.1
    have hhead : ¬ ((first.tokens ++ (later.tokens ++ rest)).head? = none ∨
        (first.tokens ++ (later.tokens ++ rest)).head? = some ['\x7d']) := by
      rw [htokens]
      rintro (hnone | hbrace)
      · cases hnone
      · exact hclosing (Option.some.inj hbrace)
    rw [tokens, List.append_assoc, parse, if_neg hhead]
    simp only [Option.bind_eq_bind, Option.bind_some, hreadFirst, hreadLater]

/-- How much higher than long a tree may be: the statements of an empty block have no token. -/
def slack : Level → Nat
  | .statement => 0
  | .statements => 1

theorem height_le (h : tree.Valid) : tree.height ≤ tree.tokens.length + slack level := by
  induction tree with
  | simple tokens =>
    obtain ⟨⟨inner, rfl, -⟩, -⟩ := h
    simp [height, Tree.tokens, slack]
  | block opening body closing ih =>
    have hbody := ih h.2.1
    simp [height, Tree.tokens, slack] at hbody ⊢
    omega
  | labeled label colon body ih =>
    have hbody := ih h.2.2
    simp [height, Tree.tokens, slack] at hbody ⊢
    omega
  | ifThen keyword condition thenPart ih =>
    have hthen := ih h.2.2
    simp [height, Tree.tokens, slack] at hthen ⊢
    omega
  | ifElse keyword condition thenPart elseKeyword elsePart ihThen ihElse =>
    have hthen := ihThen h.2.2.1
    have helse := ihElse h.2.2.2.2.2
    simp [height, Tree.tokens, slack] at hthen helse ⊢
    omega
  | loop keyword header body ih =>
    have hbody := ih h.2.2
    simp [height, Tree.tokens, slack] at hbody ⊢
    omega
  | doWhile keyword body tail ih =>
    have hbody := ih h.2.1
    simp [height, Tree.tokens, slack] at hbody ⊢
    omega
  | nil => simp [height, Tree.tokens, slack]
  | cons first later ihFirst ihLater =>
    have hfirst := ihFirst h.1
    have hlater := ihLater h.2
    obtain ⟨token, more, htokens, -⟩ := exists_cons h.1
    simp [height, Tree.tokens, slack, htokens] at hfirst hlater ⊢
    omega

/-- **A statement is read as a whole.** -/
theorem parseStatement_tokens {statement : Tree Token .statement} (h : statement.Valid) :
    parseStatement statement.tokens = some (statement, []) := by
  have hfollows : statement.Follows [] := fun _ => by simp
  have hread := parse_tokens h (height_le h) hfollows
  rwa [List.append_nil] at hread

end Tree

end JavaStatements
