import JMan.Lsp.Analysis

/-!
# JMan — identifier ranges

`identifierRange` of `JavacFrontend.java` searches the text of a tree for the name of its
element, from the front for a declaration and from the end for a reference. What it finds
is the name token unless the word stands on that side of the token too.

* `range_eq_token_iff` — when the range of a tree is that of its name token.
-/

namespace JMan.Lsp

open JMan.Config

-- Places of a name
-- ---

section Places

variable {name text before after : Text} {occurrence : Occurrence} {offset : Nat} {previous : Option Char}

theorem mem_occurrencesFrom (hname : name ≠ []) (before after : Text) (offset : Nat) (previous : Option Char) :
    (⟨offset + utf16Length before, before.getLast?.or previous, after.head?⟩ : Occurrence) ∈
      occurrencesFrom name offset previous (before ++ (name ++ after)) := by
  induction before generalizing offset previous with
  | nil =>
    obtain ⟨c, rest, rfl⟩ := List.exists_cons_of_ne_nil hname
    have hprefix : (c :: rest).isPrefixOf (c :: (rest ++ after)) = true :=
      List.isPrefixOf_iff_prefix.mpr ⟨after, rfl⟩
    have hdrop : (c :: rest ++ after).drop (c :: rest).length = after := List.drop_left
    have hnext : ((c :: (rest ++ after)).drop (c :: rest).length).head? = after.head? :=
      congrArg List.head? hdrop
    rw [List.nil_append, List.cons_append, occurrencesFrom, if_pos hprefix, hnext]
    exact List.mem_cons_self
  | cons c before ih =>
    have hlater := ih (offset + lenUtf16 c) (some c)
    have hlast : before.getLast?.or (some c) = ((c :: before).getLast?).or previous := by
      rw [List.getLast?_cons]
      cases before.getLast? <;> rfl
    rw [hlast, Nat.add_assoc] at hlater
    rw [List.cons_append, occurrencesFrom]
    split
    · exact List.mem_cons_of_mem _ hlater
    · exact hlater

theorem mem_occurrencesFrom_iff (hname : name ≠ []) :
    occurrence ∈ occurrencesFrom name 0 none text ↔
      ∃ before after, text = before ++ (name ++ after) ∧
        occurrence = ⟨utf16Length before, before.getLast?, after.head?⟩ := by
  constructor
  · intro h
    obtain ⟨before, after, rfl, hoffset, hprevious, hnext⟩ := of_mem_occurrencesFrom h
    rw [Nat.zero_add] at hoffset
    rw [Option.or_none] at hprevious
    refine ⟨before, after, List.append_assoc .., ?_⟩
    rw [← hoffset, ← hprevious, ← hnext]
  · rintro ⟨before, after, rfl, rfl⟩
    have hmem := mem_occurrencesFrom hname before after 0 none
    rwa [Nat.zero_add, Option.or_none] at hmem

theorem le_of_mem_occurrencesFrom (h : occurrence ∈ occurrencesFrom name offset previous text) :
    offset ≤ occurrence.offset := by
  obtain ⟨before, after, -, hoffset, -⟩ := of_mem_occurrencesFrom h
  omega

/-- **The places come in order, and none comes twice.** -/
theorem pairwise_occurrencesFrom (name : Text) (offset : Nat) (previous : Option Char) (text : Text) :
    (occurrencesFrom name offset previous text).Pairwise fun first second => first.offset < second.offset := by
  induction text generalizing offset previous with
  | nil => exact .nil
  | cons c rest ih =>
    rw [occurrencesFrom]
    split
    · refine .cons (fun later hlater => ?_) (ih _ _)
      have hle := le_of_mem_occurrencesFrom hlater
      have hpos := lenUtf16_pos c
      show offset < later.offset
      omega
    · exact ih _ _

end Places

-- The search
-- ---

section Search

variable {isJavaIdentifierPart : Char → Bool} {start stop length : Nat} {places earlier later : List Occurrence}
  {place : Occurrence}

theorem searchFrom_append (hearlier : ∀ other ∈ earlier, start ≤ other.offset ∧ other.offset + length ≤ stop)
    (hplace : start ≤ place.offset ∧ place.offset + length ≤ stop)
    (hbounded : place.isBounded isJavaIdentifierPart) :
    searchFrom isJavaIdentifierPart start stop length (earlier ++ place :: later) =
      some (((earlier.find? (Occurrence.isBounded isJavaIdentifierPart)).getD place).offset) := by
  induction earlier with
  | nil => rw [List.nil_append, searchFrom, if_pos hplace, if_pos hbounded, List.find?_nil, Option.getD_none]
  | cons other earlier ih =>
    rw [List.cons_append, searchFrom, if_pos (hearlier other List.mem_cons_self)]
    cases hother : other.isBounded isJavaIdentifierPart with
    | true => rw [if_pos rfl, List.find?_cons_of_pos hother, Option.getD_some]
    | false =>
      rw [if_neg Bool.false_ne_true, List.find?_cons_of_neg (by rw [hother]; exact Bool.false_ne_true)]
      exact ih fun later hlater => hearlier later (List.mem_cons_of_mem _ hlater)

/-- **A bounded place is found exactly when none comes before it.** -/
theorem searchFrom_eq_some_iff (before : Occurrence → Occurrence → Prop)
    (hbefore : ∀ first second, before first second → first.offset ≠ second.offset)
    (hplaces : places.Pairwise before) (hmem : place ∈ places)
    (hearlier : ∀ other ∈ places, before other place → start ≤ other.offset ∧ other.offset + length ≤ stop)
    (hplace : start ≤ place.offset ∧ place.offset + length ≤ stop)
    (hbounded : place.isBounded isJavaIdentifierPart) (hasymm : ∀ first second, before first second →
      ¬ before second first) :
    searchFrom isJavaIdentifierPart start stop length places = some place.offset ↔
      ∀ other ∈ places, before other place → other.isBounded isJavaIdentifierPart = false := by
  obtain ⟨earlier, later, rfl⟩ := List.append_of_mem hmem
  have hfirst : ∀ other ∈ earlier, before other place := fun other hother =>
    (List.pairwise_append.mp hplaces).2.2 other hother place List.mem_cons_self
  have hlater : ∀ other ∈ later, before place other :=
    (List.pairwise_cons.mp (List.pairwise_append.mp hplaces).2.1).1
  rw [searchFrom_append (fun other hother => hearlier other (List.mem_append_left _ hother) (hfirst other hother))
    hplace hbounded, Option.some.injEq]
  constructor
  · intro h other hother hless
    have hnone : earlier.find? (Occurrence.isBounded isJavaIdentifierPart) = none := by
      by_contra hsome
      obtain ⟨found, hfound⟩ := Option.ne_none_iff_exists'.mp hsome
      rw [hfound, Option.getD_some] at h
      exact hbefore found place (hfirst found (List.mem_of_find?_eq_some hfound)) h
    rcases List.mem_append.mp hother with hother | hother
    · exact Bool.eq_false_iff.mpr (List.find?_eq_none.mp hnone other hother)
    · rcases List.mem_cons.mp hother with rfl | hother
      · exact absurd rfl (hbefore _ _ hless)
      · exact absurd hless (hasymm _ _ (hlater other hother))
  · intro h
    have hnone : earlier.find? (Occurrence.isBounded isJavaIdentifierPart) = none :=
      List.find?_eq_none.mpr fun other hother =>
        Bool.eq_false_iff.mp (h other (List.mem_append_left _ hother) (hfirst other hother))
    rw [hnone, Option.getD_none]

end Search

-- Name tokens
-- ---

/-- The token in the text of a tree that declares its element or refers to it. The name of
the element is what it reads, or that of a constructor, `<init>`. -/
structure NameToken (isJavaIdentifierPart : Char → Bool) (source : Text) (tree : NamedTree) where
  before : Text
  text : Text
  after : Text
  split : source = before ++ (text ++ after)
  left : before.getLast?.all (fun c => !isJavaIdentifierPart c)
  right : after.head?.all (fun c => !isJavaIdentifierPart c)
  placed : 0 ≤ tree.start
  inside : tree.start ≤ utf16Length before ∧ (utf16Length before + utf16Length text : Nat) ≤ tree.stop
  nonempty : text ≠ []
  plain : text.head? ≠ some '<'
  named : tree.name.toList = text ∨ tree.name.toList.head? = some '<'

namespace NameToken

variable {isJavaIdentifierPart : Char → Bool} {source : Text} {tree : NamedTree}
  (token : NameToken isJavaIdentifierPart source tree)

def start : Nat := utf16Length token.before

def stop : Nat := utf16Length token.before + utf16Length token.text

/-- The word stands nowhere else on the side of the token that is searched first; a
constructor has to be its token. -/
def IsAlone : Prop :=
  if tree.name.toList.head? = some '<' then tree.start = token.start ∧ tree.stop = token.stop
  else ∀ offset, StandsAt isJavaIdentifierPart source token.text offset →
    if tree.isDeclaration then ¬ (tree.start ≤ offset ∧ offset < token.start)
    else ¬ (token.start < offset ∧ (offset + utf16Length token.text : Nat) ≤ tree.stop)

def place : Occurrence := ⟨token.start, token.before.getLast?, token.after.head?⟩

theorem isBounded_place : token.place.isBounded isJavaIdentifierPart := by
  have hpart : ∀ c : Option Char, c.all (fun c => !isJavaIdentifierPart c) = true →
      c.all (fun c => !unitIsIdentifierPart isJavaIdentifierPart c) = true := by
    rintro (_ | c) hc
    · rfl
    · have hc : isJavaIdentifierPart c = false := by simpa using hc
      show (!unitIsIdentifierPart isJavaIdentifierPart c) = true
      rw [unitIsIdentifierPart, hc, Bool.and_false]
      rfl
  rw [Occurrence.isBounded, Bool.and_eq_true]
  exact ⟨hpart _ token.left, hpart _ token.right⟩

theorem place_mem : token.place ∈ occurrencesFrom token.text 0 none source :=
  (mem_occurrencesFrom_iff token.nonempty).mpr ⟨token.before, token.after, token.split, rfl⟩

theorem stop_le_length : token.stop ≤ utf16Length source := by
  have hlength := congrArg utf16Length token.split
  rw [utf16Length_append, utf16Length_append] at hlength
  rw [stop]
  omega

theorem standsAt_iff {offset : Nat} : StandsAt isJavaIdentifierPart source token.text offset ↔
    ∃ other ∈ occurrencesFrom token.text 0 none source,
      other.isBounded isJavaIdentifierPart ∧ other.offset = offset := by
  constructor
  · rintro ⟨before, after, hsource, rfl, hleft, hright⟩
    refine ⟨⟨utf16Length before, before.getLast?, after.head?⟩, ?_, ?_, rfl⟩
    · exact (mem_occurrencesFrom_iff token.nonempty).mpr
        ⟨before, after, hsource.trans (List.append_assoc ..), rfl⟩
    · rw [Occurrence.isBounded, Bool.and_eq_true]
      exact ⟨hleft, hright⟩
  · rintro ⟨other, hother, hbounded, rfl⟩
    obtain ⟨before, after, hsource, rfl⟩ := (mem_occurrencesFrom_iff token.nonempty).mp hother
    rw [Occurrence.isBounded, Bool.and_eq_true] at hbounded
    exact ⟨before, after, hsource.trans (List.append_assoc ..).symm, rfl, hbounded.1, hbounded.2⟩

theorem stop_le_min : token.stop ≤ min tree.stop.toNat (utf16Length source) := by
  have hstop : (token.stop : Int) ≤ tree.stop := token.inside.2
  have hlength := token.stop_le_length
  omega

theorem min_start : min tree.start.toNat (utf16Length source) = tree.start.toNat ∧
    tree.start.toNat ≤ token.start := by
  have hstart : tree.start ≤ (token.start : Int) := token.inside.1
  have hplaced := token.placed
  have hlength := token.stop_le_length
  have hstop : token.stop = token.start + utf16Length token.text := rfl
  omega

theorem findIdentifier_declaration (hname : tree.name.toList = token.text) (hdeclaration : tree.isDeclaration = true) :
    findIdentifier isJavaIdentifierPart source tree.start.toNat tree.stop.toNat tree.name.toList
        tree.isDeclaration = some token.start ↔
      ∀ offset, StandsAt isJavaIdentifierPart source token.text offset →
        ¬ (tree.start.toNat ≤ offset ∧ offset < token.start) := by
  have hsearched : ¬ (token.text = [] ∨ token.text.head? = some '<') :=
    not_or.mpr ⟨token.nonempty, token.plain⟩
  obtain ⟨hmin, hstart⟩ := token.min_start
  have hstop := token.stop_le_min
  have hplace : tree.start.toNat ≤ token.place.offset ∧
      token.place.offset + utf16Length token.text ≤ min tree.stop.toNat (utf16Length source) := ⟨hstart, hstop⟩
  rw [findIdentifier, hname, if_neg hsearched]
  dsimp only
  rw [if_pos hdeclaration, hmin, show some token.start = some token.place.offset from rfl,
    searchFrom_eq_some_iff (fun first second => first.offset < second.offset) (fun _ _ => Nat.ne_of_lt)
      ((pairwise_occurrencesFrom _ _ _ _).filter _)
      (List.mem_filter.mpr ⟨token.place_mem, decide_eq_true hstart⟩) ?_ hplace token.isBounded_place
      fun _ _ => Nat.not_lt_of_gt]
  · constructor
    · rintro h offset hstands ⟨hfrom, hto⟩
      obtain ⟨other, hother, hbounded, rfl⟩ := token.standsAt_iff.mp hstands
      have hunbounded := h other (List.mem_filter.mpr ⟨hother, decide_eq_true hfrom⟩) hto
      exact Bool.false_ne_true (hunbounded.symm.trans hbounded)
    · intro h other hother hto
      obtain ⟨hother, hfrom⟩ := List.mem_filter.mp hother
      refine Bool.eq_false_iff.mpr fun hbounded => ?_
      exact h other.offset (token.standsAt_iff.mpr ⟨other, hother, hbounded, rfl⟩) ⟨of_decide_eq_true hfrom, hto⟩
  · intro other hother hto
    have hfrom := of_decide_eq_true (List.mem_filter.mp hother).2
    have hto : other.offset < token.start := hto
    have htoken : token.stop = token.start + utf16Length token.text := rfl
    exact ⟨hfrom, by omega⟩

theorem findIdentifier_reference (hname : tree.name.toList = token.text) (hreference : tree.isDeclaration = false) :
    findIdentifier isJavaIdentifierPart source tree.start.toNat tree.stop.toNat tree.name.toList
        tree.isDeclaration = some token.start ↔
      ∀ offset, StandsAt isJavaIdentifierPart source token.text offset →
        ¬ (token.start < offset ∧ offset + utf16Length token.text ≤ tree.stop.toNat) := by
  have hsearched : ¬ (token.text = [] ∨ token.text.head? = some '<') :=
    not_or.mpr ⟨token.nonempty, token.plain⟩
  obtain ⟨hmin, hstart⟩ := token.min_start
  have hstop := token.stop_le_min
  have htoken : token.stop = token.start + utf16Length token.text := rfl
  have hplace : tree.start.toNat ≤ token.place.offset ∧
      token.place.offset + utf16Length token.text ≤ min tree.stop.toNat (utf16Length source) := ⟨hstart, hstop⟩
  -- the token is not behind the place from where the search goes back
  have hlast : max tree.start.toNat (min tree.stop.toNat (utf16Length source) - utf16Length token.text) =
      min tree.stop.toNat (utf16Length source) - utf16Length token.text := by omega
  have hkept : token.place.offset ≤ min tree.stop.toNat (utf16Length source) - utf16Length token.text := by
    have hoffset : token.place.offset = token.start := rfl
    omega
  rw [findIdentifier, hname, if_neg hsearched]
  dsimp only
  rw [if_neg (by rw [hreference]; exact Bool.false_ne_true), hmin, hlast, show some token.start = some token.place.offset from rfl,
    searchFrom_eq_some_iff (fun first second => second.offset < first.offset) (fun _ _ => Nat.ne_of_gt)
      (List.pairwise_reverse.mpr ((pairwise_occurrencesFrom _ _ _ _).filter _))
      (List.mem_reverse.mpr (List.mem_filter.mpr ⟨token.place_mem, decide_eq_true hkept⟩)) ?_ hplace
      token.isBounded_place fun _ _ => Nat.not_lt_of_gt]
  · constructor
    · rintro h offset hstands ⟨hfrom, hto⟩
      obtain ⟨other, hother, hbounded, rfl⟩ := token.standsAt_iff.mp hstands
      obtain ⟨before, after, hsource, hoffset⟩ := (mem_occurrencesFrom_iff token.nonempty).mp hother
      have hlength := congrArg utf16Length hsource
      rw [utf16Length_append, utf16Length_append] at hlength
      have hwithin : other.offset ≤ min tree.stop.toNat (utf16Length source) - utf16Length token.text := by
        have hoffset := congrArg Occurrence.offset hoffset
        dsimp only at hoffset
        omega
      have hunbounded := h other
        (List.mem_reverse.mpr (List.mem_filter.mpr ⟨hother, decide_eq_true hwithin⟩)) hfrom
      exact Bool.false_ne_true (hunbounded.symm.trans hbounded)
    · intro h other hother hfrom
      obtain ⟨hother, hto⟩ := List.mem_filter.mp (List.mem_reverse.mp hother)
      have hto := of_decide_eq_true hto
      have hfrom : token.start < other.offset := hfrom
      refine Bool.eq_false_iff.mpr fun hbounded => ?_
      exact h other.offset (token.standsAt_iff.mpr ⟨other, hother, hbounded, rfl⟩) ⟨hfrom, by omega⟩
  · intro other hother hfrom
    have hto := of_decide_eq_true (List.mem_filter.mp (List.mem_reverse.mp hother)).2
    have hfrom : token.start < other.offset := hfrom
    exact ⟨by omega, by omega⟩

theorem findIdentifier_of_token (hname : tree.name.toList = token.text) (hstart : tree.start.toNat = token.start)
    (hstop : tree.stop.toNat = token.stop) :
    findIdentifier isJavaIdentifierPart source tree.start.toNat tree.stop.toNat tree.name.toList
      tree.isDeclaration = some token.start := by
  have htoken : token.stop = token.start + utf16Length token.text := rfl
  cases hdeclaration : tree.isDeclaration with
  | true =>
    rw [← hdeclaration]
    refine (token.findIdentifier_declaration hname hdeclaration).mpr ?_
    rintro offset - ⟨hfrom, hto⟩
    omega
  | false =>
    rw [← hdeclaration]
    refine (token.findIdentifier_reference hname hdeclaration).mpr ?_
    rintro offset - ⟨hfrom, hto⟩
    omega

theorem range_eq_iff_findIdentifier (hname : tree.name.toList = token.text) :
    tree.range isJavaIdentifierPart source = (token.start, token.stop) ↔
      findIdentifier isJavaIdentifierPart source tree.start.toNat tree.stop.toNat tree.name.toList
        tree.isDeclaration = some token.start := by
  have hlength : utf16Length tree.name.toList = utf16Length token.text := congrArg utf16Length hname
  rw [NamedTree.range, identifierRange]
  constructor
  · intro h
    cases hfind : findIdentifier isJavaIdentifierPart source tree.start.toNat tree.stop.toNat tree.name.toList
        tree.isDeclaration with
    | some offset =>
      rw [hfind] at h
      exact congrArg some (Prod.mk.inj h).1
    | none =>
      rw [hfind] at h
      obtain ⟨hstart, hstop⟩ := Prod.mk.inj h
      exact hfind.symm.trans (token.findIdentifier_of_token hname hstart hstop)
  · intro h
    rw [h, hlength]
    rfl

end NameToken

/-- **The range of a tree is that of its name token exactly when** the word stands nowhere in
front of the token of a declaration, and nowhere behind that of a reference. -/
theorem range_eq_token_iff {isJavaIdentifierPart : Char → Bool} {source : Text} {tree : NamedTree}
    (token : NameToken isJavaIdentifierPart source tree) :
    tree.range isJavaIdentifierPart source = (token.start, token.stop) ↔ token.IsAlone := by
  have hplaced := token.placed
  have hstop : (token.stop : Int) ≤ tree.stop := token.inside.2
  rw [NameToken.IsAlone]
  by_cases hconstructor : tree.name.toList.head? = some '<'
  · have hnone : findIdentifier isJavaIdentifierPart source tree.start.toNat tree.stop.toNat tree.name.toList
        tree.isDeclaration = none := if_pos (.inr hconstructor)
    rw [if_pos hconstructor, NamedTree.range, identifierRange, hnone, Prod.mk.injEq]
    constructor
    · rintro ⟨hstart, hstop⟩
      omega
    · rintro ⟨hstart, hstop⟩
      omega
  · have hname : tree.name.toList = token.text := token.named.resolve_right hconstructor
    rw [if_neg hconstructor, token.range_eq_iff_findIdentifier hname]
    by_cases hdeclaration : tree.isDeclaration = true
    · rw [token.findIdentifier_declaration hname hdeclaration]
      refine forall₂_congr fun offset _ => ?_
      rw [if_pos hdeclaration]
      omega
    · rw [token.findIdentifier_reference hname (Bool.eq_false_iff.mpr hdeclaration)]
      refine forall₂_congr fun offset _ => ?_
      rw [if_neg hdeclaration]
      omega

def annotatedSource : Text := "class C \x7b @N(\"x\") int x; \x7d".toList

def annotatedField : NamedTree := ⟨10, 24, "x", true⟩

def annotatedToken : NameToken Char.isAlphanum annotatedSource annotatedField where
  before := "class C \x7b @N(\"x\") int ".toList
  text := ['x']
  after := "; \x7d".toList
  split := by decide
  left := by decide
  right := by decide
  placed := by decide
  inside := by decide
  nonempty := by decide
  plain := by decide
  named := .inl rfl

theorem annotation_is_taken_for_name : ¬ annotatedField.range Char.isAlphanum annotatedSource =
    (annotatedToken.start, annotatedToken.stop) := by
  decide

end JMan.Lsp
