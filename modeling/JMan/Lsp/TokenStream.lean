import Mathlib.Data.List.Sort
import JMan.Lsp.Positions
import JMan.Lsp.SemanticTokens

/-!
# JMan — the stream of semantic tokens

`semantic_token_data` of `server.rs`, with `semantic_token_type`, `semantic_token_modifiers`
and `ranges_intersect`. The symbols of an analysis are sorted by their ranges; each of a
known kind that stands on one line becomes a token, told from the one before it.

* `stream_wellFormed_iff` — when the tokens ascend and do not overlap.
-/

namespace JMan.Lsp

open JMan.Config

-- Symbols as tokens
-- ---

def semanticTokenType (kind role : String) : Option Nat :=
  if kind = "package" ∨ kind = "module" then some 0
  else if kind = "class" then some 1
  else if kind = "interface" then some 2
  else if (kind = "annotation" ∨ kind = "annotation_type") ∧ role = "declaration" then some 2
  else if kind = "enum" then some 3
  else if kind = "type_parameter" then some 4
  else if kind = "method" ∨ kind = "constructor" then some 5
  else if kind = "field" then some 6
  else if kind ∈ ["local_variable", "resource_variable", "binding_variable", "variable"] then some 7
  else if kind = "record" then some 8
  else if kind = "parameter" ∨ kind = "exception_parameter" then some 9
  else if kind = "enum_constant" then some 10
  else if kind = "annotation" ∨ kind = "annotation_type" then some 11
  else none

/-- `semantic_token_modifiers`; the bits are those of different powers of two. -/
def semanticTokenModifiers (symbol : SemanticSymbol) : Nat :=
  (if symbol.role = "declaration" then 1 else 0) + (if symbol.kind = "enum_constant" then 6 else 0) +
    (if "java.".toList <+: symbol.symbolId.toList ∧ '|' ∈ symbol.symbolId.toList then 32 else 0) +
    if symbol.role = "write" then 64 else 0

def lspPosition (value : Json) : Option LspPosition := do
  let line ← (value.member "line").asU64
  let character ← (value.member "character").asU64
  return ⟨line, character⟩

/-- The order of the pairs of line and character. -/
def LspPosition.before (a b : LspPosition) : Bool :=
  decide (a.line < b.line) || (a.line == b.line && decide (a.character < b.character))

def rangesIntersect (start stop : LspPosition) (range : Json) : Bool :=
  match lspPosition (range.member "start"), lspPosition (range.member "end") with
  | some rangeStart, some rangeEnd => rangeStart.before stop && start.before rangeEnd
  | _, _ => false

/-- The body of the loop of `semantic_token_data`. -/
def SemanticSymbol.token? (source : Text) (range : Option Json) (symbol : SemanticSymbol) : Option SemanticToken :=
  match semanticTokenType symbol.kind symbol.role with
  | none => none
  | some tokenType =>
    let start := offsetToPosition source symbol.start
    let stop := offsetToPosition source symbol.stop
    if range.any fun range => !rangesIntersect start stop range then none
    else if stop.line ≠ start.line then none
    else if stop.character - start.character = 0 then none
    else some ⟨start.line, start.character, stop.character - start.character, tokenType,
      semanticTokenModifiers symbol⟩

/-- `sort_by_key(|symbol| (symbol.start, symbol.end))` -/
def sortSymbols (symbols : List SemanticSymbol) : List SemanticSymbol :=
  symbols.mergeSort fun a b => decide (a.start < b.start) || (a.start == b.start && decide (a.stop ≤ b.stop))

def Server.semanticTokenData (server : Server) (uri : String) (range : Option Json) : List Nat :=
  match server.sourceText uri, server.analyses[uri]? with
  | some source, some analysis => tokenData 0 0 ((sortSymbols analysis.symbols).filterMap (·.token? source range))
  | _, _ => []

-- Reading the stream
-- ---

/-- How a client reads the stream: lines and characters from those of the token before. -/
def decodeTokens (line character : Nat) : List Nat → List SemanticToken
  | deltaLine :: deltaStart :: length :: tokenType :: modifiers :: rest =>
    let start := if deltaLine = 0 then character + deltaStart else deltaStart
    ⟨line + deltaLine, start, length, tokenType, modifiers⟩ :: decodeTokens (line + deltaLine) start rest
  | _ => []

def SemanticToken.start (token : SemanticToken) : LspPosition := ⟨token.line, token.character⟩

def SemanticToken.stop (token : SemanticToken) : LspPosition := ⟨token.line, token.character + token.length⟩

/-- The tokens ascend, and none reaches into the next. -/
structure TokensWellFormed (tokens : List SemanticToken) : Prop where
  ascending : tokens.Pairwise fun a b => a.start.before b.start = true
  disjoint : tokens.Pairwise fun a b => a.stop ≤ b.start

/-- A token at the start of a symbol that stands on one line, with its length. -/
structure SemanticToken.Marks (source : Text) (symbol : SemanticSymbol) (token : SemanticToken) : Prop where
  kind : semanticTokenType symbol.kind symbol.role = some token.tokenType
  start : offsetToPosition source symbol.start = token.start
  stop : offsetToPosition source symbol.stop = token.stop
  length : 0 < token.length
  modifiers : token.modifiers = semanticTokenModifiers symbol

section Decode

theorem before_iff_not_le {a b : LspPosition} : a.before b = true ↔ ¬ b ≤ a := by
  have hle : b ≤ a ↔ b.line < a.line ∨ (b.line = a.line ∧ b.character ≤ a.character) := Iff.rfl
  simp only [LspPosition.before, Bool.or_eq_true, Bool.and_eq_true, decide_eq_true_eq, beq_iff_eq, hle]
  omega

theorem decodeTokens_tokenData (line character : Nat) (tokens : List SemanticToken)
    (hfirst : ∀ token ∈ tokens, (⟨line, character⟩ : LspPosition) ≤ token.start)
    (hsorted : tokens.Pairwise fun a b => a.start ≤ b.start) :
    decodeTokens line character (tokenData line character tokens) = tokens := by
  induction tokens generalizing line character with
  | nil => rfl
  | cons token rest ih =>
    obtain ⟨hnext, hrest⟩ := List.pairwise_cons.mp hsorted
    have hle : line < token.line ∨ (line = token.line ∧ character ≤ token.character) := hfirst token List.mem_cons_self
    have hline : line + (token.line - line) = token.line := by omega
    have hstart : (if token.line - line = 0 then
        character + (if token.line - line = 0 then token.character - character else token.character)
        else if token.line - line = 0 then token.character - character else token.character) = token.character := by
      split_ifs <;> omega
    rw [tokenData, decodeTokens]
    simp only [hline, hstart]
    rw [ih token.line token.character hnext hrest]

end Decode

-- The tokens of an analysis
-- ---

section Tokens

variable {source : Text} {symbol : SemanticSymbol} {token : SemanticToken} {symbols : List SemanticSymbol}

theorem token?_eq_some : symbol.token? source none = some token ↔ token.Marks source symbol := by
  unfold SemanticSymbol.token?
  cases htype : semanticTokenType symbol.kind symbol.role with
  | none =>
    refine ⟨fun h => (by cases h), fun h => ?_⟩
    cases htype.symm.trans h.kind
  | some tokenType =>
    simp only [Option.any_none, Bool.false_eq_true, if_false]
    constructor
    · intro h
      split_ifs at h with hline hlength
      cases h
      refine ⟨htype, rfl, ?_, Nat.pos_of_ne_zero hlength, rfl⟩
      -- the stop is on the line of the start, and behind it
      have hline := Classical.not_not.mp hline
      generalize offsetToPosition source symbol.start = start at hline hlength ⊢
      generalize offsetToPosition source symbol.stop = stop at hline hlength ⊢
      have hcharacter : start.character + (stop.character - start.character) = stop.character := by omega
      rw [SemanticToken.stop, hcharacter, ← hline]
    · rintro ⟨hkind, hstart, hstop, hlength, hmodifiers⟩
      cases htype.symm.trans hkind
      rw [hstart, hstop, SemanticToken.start, SemanticToken.stop, if_neg (fun h => h rfl),
        Nat.add_sub_cancel_left, if_neg (Nat.ne_of_gt hlength), ← hmodifiers]

theorem token?_range (range : Json) : symbol.token? source (some range) =
    (symbol.token? source none).filter fun token => rangesIntersect token.start token.stop range := by
  cases htoken : symbol.token? source none with
  | none =>
    unfold SemanticSymbol.token? at htoken ⊢
    cases htype : semanticTokenType symbol.kind symbol.role with
    | none => rfl
    | some tokenType =>
      simp only [htype, Option.any_none, Bool.false_eq_true, if_false] at htoken
      simp only [htoken, ite_self]
      rfl
  | some token =>
    have hmarks := token?_eq_some.mp htoken
    unfold SemanticSymbol.token? at htoken ⊢
    simp only [hmarks.kind, hmarks.start, hmarks.stop, Option.any_none, Bool.false_eq_true, if_false] at htoken
    simp only [hmarks.kind, hmarks.start, hmarks.stop, htoken, Option.any_some, Option.filter_some]
    cases rangesIntersect token.start token.stop range <;> rfl

theorem sortSymbols_perm (symbols : List SemanticSymbol) : (sortSymbols symbols).Perm symbols :=
  List.mergeSort_perm _ _

theorem sortSymbols_ascending (symbols : List SemanticSymbol) :
    (sortSymbols symbols).Pairwise fun a b => a.start ≤ b.start := by
  refine (List.pairwise_mergeSort ?_ ?_ symbols).imp fun {a b} h => ?_
  · simp only [Bool.or_eq_true, Bool.and_eq_true, decide_eq_true_eq, beq_iff_eq]
    omega
  · simp only [Bool.or_eq_true, Bool.and_eq_true, decide_eq_true_eq, beq_iff_eq]
    omega
  · simp only [Bool.or_eq_true, Bool.and_eq_true, decide_eq_true_eq, beq_iff_eq] at h
    omega

/-- The tokens of the sorted symbols, for a range or all of them. -/
def tokensOf (source : Text) (symbols : List SemanticSymbol) : List SemanticToken :=
  (sortSymbols symbols).filterMap (·.token? source none)

theorem tokensOf_range (range : Json) : (sortSymbols symbols).filterMap (·.token? source (some range)) =
    (tokensOf source symbols).filter fun token => rangesIntersect token.start token.stop range := by
  rw [tokensOf, List.filter_filterMap]
  exact List.filterMap_congr fun symbol _ => token?_range range

theorem tokensOf_ascending : (tokensOf source symbols).Pairwise fun a b => a.start ≤ b.start := by
  refine List.pairwise_filterMap.mpr ((sortSymbols_ascending symbols).imp fun {a b} h token htoken other hother => ?_)
  rw [← (token?_eq_some.mp htoken).start, ← (token?_eq_some.mp hother).start]
  exact positionFrom_mono _ _ h

theorem decodeTokens_sublist {tokens : List SemanticToken} (h : tokens.Sublist (tokensOf source symbols)) :
    decodeTokens 0 0 (tokenData 0 0 tokens) = tokens := by
  refine decodeTokens_tokenData 0 0 tokens (fun token _ => ?_) (tokensOf_ascending.sublist h)
  exact (Nat.eq_zero_or_pos token.line).elim (fun h => .inr ⟨h.symm, Nat.zero_le _⟩) .inl

-- When the stream is well formed
-- ---

/-- The symbol becomes a token: its kind is known, and it stands on one line. -/
structure SemanticSymbol.Shown (source : Text) (symbol : SemanticSymbol) : Prop where
  kind : (semanticTokenType symbol.kind symbol.role).isSome
  line : (offsetToPosition source symbol.stop).line = (offsetToPosition source symbol.start).line
  character : (offsetToPosition source symbol.start).character < (offsetToPosition source symbol.stop).character

/-- One of the symbols ends where the other starts, or before. -/
def SemanticSymbol.Apart (source : Text) (a b : SemanticSymbol) : Prop :=
  offsetToPosition source a.stop ≤ offsetToPosition source b.start ∨
    offsetToPosition source b.stop ≤ offsetToPosition source a.start

def NoOverlap (source : Text) (symbols : List SemanticSymbol) : Prop :=
  symbols.Pairwise fun a b => a.Shown source → b.Shown source → a.Apart source b

/-- What the stream of a text is to be, and what is answered for a range. -/
structure StreamSound (source : Text) (symbols : List SemanticSymbol) (data : Option Json → List Nat) : Prop where
  wellFormed : TokensWellFormed (decodeTokens 0 0 (data none))
  stands : ∀ token ∈ decodeTokens 0 0 (data none), ∃ symbol ∈ symbols, token.Marks source symbol ∧
    ∀ before inner after, source = before ++ (inner ++ after) → symbol.start = utf16Length before →
      symbol.stop = utf16Length (before ++ inner) → token.length = utf16Length inner
  range : ∀ range, decodeTokens 0 0 (data (some range)) =
    (decodeTokens 0 0 (data none)).filter fun token => rangesIntersect token.start token.stop range

theorem shown_iff : symbol.Shown source ↔ ∃ token : SemanticToken, token.Marks source symbol := by
  constructor
  · rintro ⟨hkind, hline, hcharacter⟩
    obtain ⟨tokenType, htype⟩ := Option.isSome_iff_exists.mp hkind
    generalize hstart : offsetToPosition source symbol.start = start at hline hcharacter
    generalize hstop : offsetToPosition source symbol.stop = stop at hline hcharacter
    refine ⟨⟨start.line, start.character, stop.character - start.character, tokenType,
      semanticTokenModifiers symbol⟩, htype, hstart, ?_, Nat.sub_pos_of_lt hcharacter, rfl⟩
    rw [hstop, SemanticToken.stop, Nat.add_sub_cancel' (Nat.le_of_lt hcharacter), ← hline]
  · rintro ⟨token, hkind, hstart, hstop, hlength, -⟩
    refine ⟨?_, ?_, ?_⟩
    · rw [hkind]
      rfl
    · rw [hstart, hstop]
      rfl
    · rw [hstart, hstop]
      exact Nat.lt_add_of_pos_right hlength

theorem SemanticToken.Marks.length_eq (h : token.Marks source symbol) {before inner after : Text}
    (hsource : source = before ++ (inner ++ after)) (hstart : symbol.start = utf16Length before)
    (hstop : symbol.stop = utf16Length (before ++ inner)) : token.length = utf16Length inner := by
  have hfrom := h.start
  have hto := h.stop
  rw [hstart, hsource, offsetToPosition_append] at hfrom
  rw [hstop, hsource, ← List.append_assoc, offsetToPosition_append, positionAfter, List.foldl_append,
    ← positionAfter, hfrom] at hto
  have hline : '\n' ∉ inner := by
    have hlines := line_foldl_advance token.start 0 inner
    rw [hto] at hlines
    have hzero : (newlines 0 inner).length = 0 := by
      simp only [SemanticToken.start, SemanticToken.stop] at hlines
      omega
    exact (newlines_eq_nil 0).mp (List.eq_nil_of_length_eq_zero hzero)
  rw [foldl_advance_line _ hline] at hto
  have hcharacter := congrArg LspPosition.character hto
  simp only [SemanticToken.start, SemanticToken.stop] at hcharacter
  omega

theorem SemanticToken.not_stop_le {other : SemanticToken} (hlength : 0 < token.length)
    (hstart : other.start ≤ token.start) : ¬ token.stop ≤ other.start := by
  have hle : ∀ a b : LspPosition, a ≤ b ↔ a.line < b.line ∨ (a.line = b.line ∧ a.character ≤ b.character) :=
    fun _ _ => Iff.rfl
  rw [hle] at hstart ⊢
  simp only [SemanticToken.start, SemanticToken.stop] at hstart ⊢
  omega

theorem tokensWellFormed_iff {tokens : List SemanticToken} (hlength : ∀ token ∈ tokens, 0 < token.length) :
    TokensWellFormed tokens ↔ tokens.Pairwise fun a b => a.stop ≤ b.start := by
  refine ⟨fun h => h.disjoint, fun h => ⟨?_, h⟩⟩
  exact h.imp_of_mem fun {a b} ha _ hle => before_iff_not_le.mpr fun hback => a.not_stop_le (hlength a ha) hback hle

theorem tokensOf_disjoint_iff : ((tokensOf source symbols).Pairwise fun a b => a.stop ≤ b.start) ↔
    NoOverlap source symbols := by
  have hsymmetric : ∀ a b : SemanticSymbol, (a.Shown source → b.Shown source → a.Apart source b) →
      b.Shown source → a.Shown source → b.Apart source a := fun a b h hb ha => (h ha hb).symm
  rw [NoOverlap, ← (sortSymbols_perm symbols).pairwise_iff (hsymmetric _ _), tokensOf, List.pairwise_filterMap]
  constructor
  · refine fun h => h.imp fun {a b} hab ha hb => ?_
    obtain ⟨token, htoken⟩ := shown_iff.mp ha
    obtain ⟨other, hother⟩ := shown_iff.mp hb
    left
    rw [htoken.stop, hother.start]
    exact hab token (token?_eq_some.mpr htoken) other (token?_eq_some.mpr hother)
  · refine fun h => ((sortSymbols_ascending symbols).and h).imp fun {a b} hab token htoken other hother => ?_
    have htoken := token?_eq_some.mp htoken
    have hother := token?_eq_some.mp hother
    have hstarts : offsetToPosition source a.start ≤ offsetToPosition source b.start := positionFrom_mono _ _ hab.1
    have hapart := hab.2 (shown_iff.mpr ⟨token, htoken⟩) (shown_iff.mpr ⟨other, hother⟩)
    rw [SemanticSymbol.Apart, htoken.stop, hother.start, hother.stop, htoken.start] at hapart
    rw [htoken.start, hother.start] at hstarts
    obtain hle | hle := hapart
    · exact hle
    · -- the second symbol would end before it starts
      cases other.not_stop_le hother.length hstarts hle

end Tokens

-- The answers of the server
-- ---

section Server

variable {server : Server} {uri : String} {source : Text} {analysis : SemanticResult}

theorem semanticTokenData_eq (hsource : server.sourceText uri = some source)
    (hanalysis : server.analyses[uri]? = some analysis) (range : Option Json) : server.semanticTokenData uri range =
      tokenData 0 0 ((sortSymbols analysis.symbols).filterMap (·.token? source range)) := by
  rw [Server.semanticTokenData, hsource, hanalysis]

theorem decodeTokens_semanticTokenData (hsource : server.sourceText uri = some source)
    (hanalysis : server.analyses[uri]? = some analysis) :
    decodeTokens 0 0 (server.semanticTokenData uri none) = tokensOf source analysis.symbols := by
  rw [semanticTokenData_eq hsource hanalysis]
  exact decodeTokens_sublist (List.Sublist.refl _)

theorem semanticTokenData_range (hsource : server.sourceText uri = some source)
    (hanalysis : server.analyses[uri]? = some analysis) (range : Json) :
    decodeTokens 0 0 (server.semanticTokenData uri (some range)) =
      (tokensOf source analysis.symbols).filter fun token => rangesIntersect token.start token.stop range := by
  rw [semanticTokenData_eq hsource hanalysis, tokensOf_range]
  exact decodeTokens_sublist List.filter_sublist

/-- **The stream.** The tokens stand where their symbols do, and a range has those of the
whole that meet it. They ascend and are disjoint exactly if no two symbols that become
tokens overlap. -/
theorem stream_wellFormed_iff (hsource : server.sourceText uri = some source)
    (hanalysis : server.analyses[uri]? = some analysis) :
    StreamSound source analysis.symbols (server.semanticTokenData uri) ↔ NoOverlap source analysis.symbols := by
  have hdecode := decodeTokens_semanticTokenData hsource hanalysis
  have hmarks : ∀ token ∈ tokensOf source analysis.symbols, ∃ symbol ∈ analysis.symbols,
      token.Marks source symbol := by
    intro token htoken
    obtain ⟨symbol, hsymbol, htoken⟩ := List.mem_filterMap.mp htoken
    exact ⟨symbol, (sortSymbols_perm _).mem_iff.mp hsymbol, token?_eq_some.mp htoken⟩
  have hlength : ∀ token ∈ tokensOf source analysis.symbols, 0 < token.length := fun token htoken =>
    (hmarks token htoken).elim fun _ h => h.2.length
  rw [← tokensOf_disjoint_iff, ← tokensWellFormed_iff hlength]
  constructor
  · intro h
    have hwell := h.wellFormed
    rwa [hdecode] at hwell
  · intro h
    refine ⟨?_, ?_, fun range => ?_⟩
    · rwa [hdecode]
    · intro token htoken
      rw [hdecode] at htoken
      obtain ⟨symbol, hsymbol, hmark⟩ := hmarks token htoken
      exact ⟨symbol, hsymbol, hmark, fun _ _ _ hsplit hstart hstop => hmark.length_eq hsplit hstart hstop⟩
    · rw [hdecode, semanticTokenData_range hsource hanalysis range]

end Server

def overridableSymbols : List SemanticSymbol :=
  [⟨"declaration", "class", "A", "A", "A", 6, 7⟩,
    ⟨"declaration", "method", "run", "A#run", "<unnamed>|A#run()V", 15, 18⟩,
    ⟨"override_family", "method", "run", "<unnamed>|A#run()V", "<unnamed>|A#run()V", 15, 18⟩]

def overridableText : Text := "class A { void run() {} }".toList

def analyzedServer (symbols : List SemanticSymbol) : Server :=
  { Server.new with
    indexedSources := (∅ : BTreeMap Text).insert "file:///A.java" overridableText
    analyses := (∅ : BTreeMap SemanticResult).insert "file:///A.java" ⟨symbols, []⟩ }

theorem class_stream_wellFormed :
    (analyzedServer (overridableSymbols.take 2)).sourceText "file:///A.java" = some overridableText ∧
    StreamSound overridableText (overridableSymbols.take 2)
      ((analyzedServer (overridableSymbols.take 2)).semanticTokenData "file:///A.java") := by
  have hsource : (analyzedServer (overridableSymbols.take 2)).sourceText "file:///A.java" = some overridableText := by
    decide +kernel
  have hanalysis : (analyzedServer (overridableSymbols.take 2)).analyses["file:///A.java"]? =
      some ⟨overridableSymbols.take 2, []⟩ := by decide +kernel
  refine ⟨hsource, (stream_wellFormed_iff hsource hanalysis).mpr ?_⟩
  refine List.pairwise_cons.mpr ⟨fun b hb _ _ => .inl ?_, List.pairwise_singleton _ _⟩
  cases List.mem_singleton.mp hb
  exact .inr ⟨by decide, by decide⟩

theorem method_told_twice : ¬ StreamSound overridableText overridableSymbols
    ((analyzedServer overridableSymbols).semanticTokenData "file:///A.java") := by
  intro h
  have hsource : (analyzedServer overridableSymbols).sourceText "file:///A.java" = some overridableText := by
    decide +kernel
  have hanalysis : (analyzedServer overridableSymbols).analyses["file:///A.java"]? =
      some ⟨overridableSymbols, []⟩ := by decide +kernel
  have hdisjoint := h.wellFormed.disjoint
  rw [decodeTokens_semanticTokenData hsource hanalysis, tokensOf_disjoint_iff] at hdisjoint
  -- the method and its family are both shown, at one range
  have hpair := (List.pairwise_cons.mp (List.pairwise_cons.mp hdisjoint).2).1 _ List.mem_cons_self
  have hapart := hpair ⟨by decide, by decide, by decide⟩ ⟨by decide, by decide, by decide⟩
  rw [SemanticSymbol.Apart, or_self] at hapart
  rcases hapart with hline | ⟨-, hcharacter⟩
  · exact absurd hline (by decide)
  · exact absurd hcharacter (by decide)

end JMan.Lsp
