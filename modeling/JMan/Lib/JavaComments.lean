import JMan.Lib.JavaLexis

/-!
# Comments in Java texts

A text without literals read character by character: its comments, its line ends, and the
characters of its program. What is read of two texts one behind the other is read of each,
when the first does not end inside of a comment.

* `lexFrom_append`, `Gap.readsAs` — what is read of a text with another behind it, and of a gap.
-/

namespace JavaLexis

-- Reading

inductive Item where
  | comment (text : Text)
  | lineEnd
  | blank
  | code (c : Char)
deriving DecidableEq

/-- The item that a character is outside of comments. -/
def Item.ofChar (c : Char) : Item := if IsLineEnd c then .lineEnd else if IsBlank c then .blank else .code c

def Item.comment? : Item → Option Text
  | .comment text => some text
  | _ => none

def Item.isCode : Item → Bool
  | .code _ => true
  | _ => false

/-- Where a reader is: a comment with what is read of it, and whether that ends in a star. -/
inductive LexState where
  | code
  | slash
  | line (body : Text)
  | block (body : Text) (star : Bool)
deriving DecidableEq

def LexState.next (c : Char) : LexState → List Item × LexState
  | .code => if c = '/' then ([], .slash) else ([.ofChar c], .code)
  | .slash =>
    if c = '/' then ([], .line ['/', '/'])
    else if c = '*' then ([], .block ['/', '*'] false)
    else ([.code '/', .ofChar c], .code)
  | .line body => if IsLineEnd c then ([.comment body, .lineEnd], .code) else ([], .line (body ++ [c]))
  | .block body star =>
    if star ∧ c = '/' then ([.comment (body ++ [c])], .code) else ([], .block (body ++ [c]) (c = '*'))

/-- What is read of a text, and where the reader is behind it. -/
def lexFrom (state : LexState) : Text → List Item × LexState
  | [] => ([], state)
  | c :: rest =>
    let turn := state.next c
    let later := lexFrom turn.2 rest
    (turn.1 ++ later.1, later.2)

def LexState.last : LexState → List Item
  | .code => []
  | .slash => [.code '/']
  | .line body => [.comment body]
  | .block body _ => [.comment body]

def itemsOf (text : Text) : List Item := (lexFrom .code text).1 ++ (lexFrom .code text).2.last

def commentsOf (text : Text) : List Text := (itemsOf text).filterMap Item.comment?

def ReadsAs (text : Text) (items : List Item) : Prop := lexFrom .code text = (items, .code)

-- Texts one behind the other

section Reading

variable {text before after : Text} {items more : List Item} {state : LexState} {c : Char}

theorem lexFrom_append (state : LexState) (before after : Text) :
    lexFrom state (before ++ after) =
      ((lexFrom state before).1 ++ (lexFrom (lexFrom state before).2 after).1,
        (lexFrom (lexFrom state before).2 after).2) := by
  induction before generalizing state with
  | nil => rfl
  | cons c before ih => rw [List.cons_append, lexFrom, ih, lexFrom, List.append_assoc]

theorem ReadsAs.append (h : ReadsAs before items) (h' : ReadsAs after more) :
    ReadsAs (before ++ after) (items ++ more) := by
  unfold ReadsAs at h h' ⊢
  rw [lexFrom_append, h, h']

theorem ReadsAs.nil : ReadsAs [] [] := rfl

theorem ReadsAs.cons (hc : c ≠ '/') (h : ReadsAs text items) : ReadsAs (c :: text) (.ofChar c :: items) := by
  unfold ReadsAs at h ⊢
  rw [lexFrom, LexState.next, if_neg hc, h]
  rfl

theorem ReadsAs.plain (h : '/' ∉ text) : ReadsAs text (text.map Item.ofChar) := by
  induction text with
  | nil => exact .nil
  | cons c text ih =>
    have hc : c ≠ '/' := fun hc => h (hc ▸ List.mem_cons_self)
    exact .cons hc (ih fun hmem => h (List.mem_cons_of_mem c hmem))

@[simp] theorem Item.comment?_ofChar (c : Char) : (Item.ofChar c).comment? = none := by
  unfold Item.ofChar
  split
  · rfl
  · split <;> rfl

theorem ReadsAs.itemsOf (h : ReadsAs text items) : itemsOf text = items := by
  unfold ReadsAs at h
  rw [JavaLexis.itemsOf, h]
  exact List.append_nil items

theorem ReadsAs.self (h : ReadsAs text items) : ReadsAs text (JavaLexis.itemsOf text) := h.itemsOf.symm ▸ h

theorem lexFrom_line (body : Text) (hbody : ∀ d ∈ text, ¬ IsLineEnd d) (hc : IsLineEnd c) (rest : Text) :
    lexFrom (.line body) (text ++ c :: rest) =
      (.comment (body ++ text) :: .lineEnd :: (lexFrom .code rest).1, (lexFrom .code rest).2) := by
  induction text generalizing body with
  | nil =>
    rw [List.nil_append, lexFrom, LexState.next, if_pos hc, List.append_nil]
    rfl
  | cons d text ih =>
    rw [List.cons_append, lexFrom, LexState.next, if_neg (hbody d List.mem_cons_self)]
    dsimp only
    rw [ih _ fun e he => hbody e (List.mem_cons_of_mem _ he), List.append_assoc]
    rfl

theorem lexFrom_block (body : Text) (star : Bool) (hbody : ¬ ['*', '/'] <:+: text ++ ['*'])
    (hstar : star = true → (text ++ ['*']).head? ≠ some '/') (rest : Text) :
    lexFrom (.block body star) (text ++ '*' :: '/' :: rest) =
      (.comment (body ++ text ++ ['*', '/']) :: (lexFrom .code rest).1, (lexFrom .code rest).2) := by
  induction text generalizing body star with
  | nil =>
    rw [List.nil_append, lexFrom, LexState.next, if_neg (fun h => absurd h.2 (by decide)), lexFrom, LexState.next,
      if_pos ⟨by decide, rfl⟩, List.append_nil, List.append_assoc]
    rfl
  | cons d text ih =>
    have hend : ¬ (star = true ∧ d = '/') := fun h => hstar h.1 (by rw [h.2]; rfl)
    rw [List.cons_append, lexFrom, LexState.next, if_neg hend]
    dsimp only
    rw [ih]
    · rw [List.append_assoc body [d] text]
      rfl
    · exact fun hin => hbody (hin.trans ⟨[d], [], by rw [List.append_nil]; rfl⟩)
    · intro hd hhead
      obtain rfl : d = '*' := of_decide_eq_true hd
      cases text with
      | nil => exact absurd hhead (by decide)
      | cons e text =>
        obtain rfl : e = '/' := Option.some.inj hhead
        exact hbody ⟨[], text ++ ['*'], rfl⟩

/-- **What is read of a gap has no program in it.** -/
theorem Gap.readsAs (h : Gap text) : ∃ items, ReadsAs text items ∧ ∀ item ∈ items, item.isCode = false := by
  induction h with
  | nil => exact ⟨[], .nil, fun item hitem => absurd hitem List.not_mem_nil⟩
  | @blank c rest hc _ ih =>
    obtain ⟨items, hitems, hcode⟩ := ih
    have hslash : c ≠ '/' := by
      rintro rfl
      exact absurd hc (by decide)
    have hblank : (Item.ofChar c).isCode = false := by
      unfold Item.ofChar
      rw [if_pos hc]
      split <;> rfl
    exact ⟨_, hitems.cons hslash, List.forall_mem_cons.mpr ⟨hblank, hcode⟩⟩
  | @line body rest c hbody hc _ ih =>
    obtain ⟨items, hitems, hcode⟩ := ih
    refine ⟨.comment (['/', '/'] ++ body) :: .lineEnd :: items, ?_,
      List.forall_mem_cons.mpr ⟨rfl, List.forall_mem_cons.mpr ⟨rfl, hcode⟩⟩⟩
    unfold ReadsAs at hitems ⊢
    show lexFrom (.line ['/', '/']) (body ++ c :: rest) = _
    rw [lexFrom_line _ hbody hc, hitems]
  | @block body rest hbody _ ih =>
    obtain ⟨items, hitems, hcode⟩ := ih
    refine ⟨.comment (['/', '*'] ++ body ++ ['*', '/']) :: items, ?_, List.forall_mem_cons.mpr ⟨rfl, hcode⟩⟩
    unfold ReadsAs at hitems ⊢
    show lexFrom (.block ['/', '*'] false) (body ++ '*' :: '/' :: rest) = _
    rw [lexFrom_block _ _ hbody (fun h => absurd h Bool.false_ne_true), hitems]

theorem Gap.isCode_itemsOf (h : Gap text) : ∀ item ∈ JavaLexis.itemsOf text, item.isCode = false := by
  obtain ⟨items, hreads, hcode⟩ := h.readsAs
  rw [hreads.itemsOf]
  exact hcode

end Reading

end JavaLexis
