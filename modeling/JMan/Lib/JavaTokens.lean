import JMan.Lib.JavaLexis

/-!
# The tokens of a Java text

A text has one list of tokens only: a gap ends where a token begins, and a token where its
characters say.

* `Gap.unique`, `IsToken.unique` — the first gap and the first token.
* `Spelled.unique` — all of them.
-/

namespace JavaLexis

-- First places

theorem eq_of_first {P : Char → Prop} {body body' rest rest' : Text} {c c' : Char} (hbody : ∀ d ∈ body, ¬ P d) (hc : P c)
    (hbody' : ∀ d ∈ body', ¬ P d) (hc' : P c') (h : body ++ c :: rest = body' ++ c' :: rest') :
    body = body' ∧ c = c' ∧ rest = rest' := by
  induction body generalizing body' with
  | nil =>
    cases body' with
    | nil => exact ⟨rfl, List.cons.inj h⟩
    | cons d body' => exact absurd ((List.cons.inj h).1 ▸ hc) (hbody' d List.mem_cons_self)
  | cons d body ih =>
    cases body' with
    | nil => exact absurd ((List.cons.inj h).1 ▸ hc') (hbody d List.mem_cons_self)
    | cons d' body' =>
      obtain ⟨rfl, hrest⟩ := List.cons.inj h
      obtain ⟨rfl, hsame⟩ := ih (fun e he => hbody e (List.mem_cons_of_mem _ he))
        (fun e he => hbody' e (List.mem_cons_of_mem _ he)) hrest
      exact ⟨rfl, hsame⟩

theorem nil_of_first_end {body more rest rest' : Text} (hmore : ¬ ['*', '/'] <:+: body ++ more ++ ['*'])
    (h : '*' :: '/' :: rest = more ++ '*' :: '/' :: rest') : more = [] := by
  cases more with
  | nil => rfl
  | cons c more =>
    obtain ⟨rfl, htail⟩ := List.cons.inj h
    cases more with
    | nil => exact absurd (List.cons.inj htail).1 (by decide)
    | cons d more =>
      obtain ⟨rfl, -⟩ := List.cons.inj htail
      exact absurd ⟨body, more ++ ['*'], by simp⟩ hmore

theorem eq_of_first_end {body body' rest rest' : Text} (hbody : ¬ ['*', '/'] <:+: body ++ ['*'])
    (hbody' : ¬ ['*', '/'] <:+: body' ++ ['*'])
    (h : body ++ '*' :: '/' :: rest = body' ++ '*' :: '/' :: rest') : body = body' ∧ rest = rest' := by
  rcases List.append_eq_append_iff.mp h with ⟨more, rfl, hmore⟩ | ⟨more, rfl, hmore⟩
  · obtain rfl := nil_of_first_end hbody' hmore
    exact ⟨(List.append_nil body).symm, (List.cons.inj (List.cons.inj hmore).2).2⟩
  · obtain rfl := nil_of_first_end hbody hmore
    exact ⟨List.append_nil body', (List.cons.inj (List.cons.inj hmore).2).2.symm⟩

-- Gaps

structure StartsToken (text : Text) : Prop where
  blank : ∀ c ∈ text.head?, ¬ IsBlank c
  line : ¬ ['/', '/'] <+: text
  block : ¬ ['/', '*'] <+: text

section Gaps

variable {gap gap' rest rest' : Text}

theorem Gap.eq_nil (h : Gap gap) (hstarts : StartsToken (gap ++ rest)) : gap = [] := by
  cases h with
  | nil => rfl
  | blank hc _ => exact absurd hc (hstarts.blank _ rfl)
  | line _ _ _ => exact absurd ⟨_, rfl⟩ hstarts.line
  | block _ _ => exact absurd ⟨_, rfl⟩ hstarts.block

/-- **A gap ends where a token begins.** -/
theorem Gap.unique (h : Gap gap) (h' : Gap gap') (hstarts : StartsToken rest) (hstarts' : StartsToken rest')
    (heq : gap ++ rest = gap' ++ rest') : gap = gap' ∧ rest = rest' := by
  induction h generalizing gap' with
  | nil =>
    rw [List.nil_append] at heq
    obtain rfl := h'.eq_nil (heq ▸ hstarts)
    exact ⟨rfl, heq⟩
  | @blank c text hc htext ih =>
    cases h' with
    | nil => exact absurd hc (hstarts'.blank c (congrArg List.head? heq.symm))
    | blank hc' htext' =>
      obtain ⟨rfl, htail⟩ := List.cons.inj heq
      obtain ⟨rfl, hrest⟩ := ih htext' htail
      exact ⟨rfl, hrest⟩
    | line _ _ _ => exact absurd ((List.cons.inj heq).1 ▸ hc) (by decide)
    | block _ _ => exact absurd ((List.cons.inj heq).1 ▸ hc) (by decide)
  | @line body text c hbody hc htext ih =>
    cases h' with
    | nil => exact absurd ⟨_, heq⟩ hstarts'.line
    | blank hc' _ => exact absurd ((List.cons.inj heq).1.symm ▸ hc') (by decide)
    | @line body' text' c' hbody' hc' htext' =>
      simp only [List.cons_append, List.append_assoc, List.cons.injEq, true_and] at heq
      obtain ⟨rfl, rfl, htail⟩ := eq_of_first hbody hc hbody' hc' heq
      obtain ⟨rfl, hrest⟩ := ih htext' htail
      exact ⟨rfl, hrest⟩
    | block _ _ => exact absurd (List.cons.inj (List.cons.inj heq).2).1 (by decide)
  | @block body text hbody htext ih =>
    cases h' with
    | nil => exact absurd ⟨_, heq⟩ hstarts'.block
    | blank hc' _ => exact absurd ((List.cons.inj heq).1.symm ▸ hc') (by decide)
    | line _ _ _ => exact absurd (List.cons.inj (List.cons.inj heq).2).1 (by decide)
    | @block body' text' hbody' htext' =>
      simp only [List.cons_append, List.append_assoc, List.cons.injEq, true_and] at heq
      obtain ⟨rfl, htail⟩ := eq_of_first_end hbody hbody' heq
      obtain ⟨rfl, hrest⟩ := ih htext' htail
      exact ⟨rfl, hrest⟩

end Gaps

-- Literals

section Literals

variable {quote : Char} {body body' rest rest' : Text}

theorem Quoted.unique (h : Quoted quote body) (h' : Quoted quote body') (hquote : quote ≠ '\\')
    (heq : body ++ quote :: rest = body' ++ quote :: rest') : body = body' ∧ rest = rest' := by
  induction h generalizing body' with
  | nil =>
    cases h' with
    | nil => exact ⟨rfl, (List.cons.inj heq).2⟩
    | plain hne _ _ _ => exact absurd (List.cons.inj heq).1.symm hne
    | escape _ _ => exact absurd (List.cons.inj heq).1 hquote
  | plain hne hescape _ _ ih =>
    cases h' with
    | nil => exact absurd (List.cons.inj heq).1 hne
    | plain _ _ _ hrest' =>
      obtain ⟨rfl, htail⟩ := List.cons.inj heq
      obtain ⟨rfl, hsame⟩ := ih hrest' htail
      exact ⟨rfl, hsame⟩
    | escape _ _ => exact absurd (List.cons.inj heq).1 hescape
  | escape _ _ ih =>
    cases h' with
    | nil => exact absurd (List.cons.inj heq).1.symm hquote
    | plain _ hescape _ _ => exact absurd (List.cons.inj heq).1.symm hescape
    | escape _ hrest' =>
      obtain ⟨rfl, htail⟩ := List.cons.inj (List.cons.inj heq).2
      obtain ⟨rfl, hsame⟩ := ih hrest' htail
      exact ⟨rfl, hsame⟩

theorem BlockQuoted.not_quotes {c : Char} (h : BlockQuoted (c :: body)) :
    textBlockQuote ++ rest ≠ c :: (body ++ (textBlockQuote ++ rest')) := by
  intro heq
  obtain ⟨hc, hbody⟩ := List.cons.inj heq
  cases h with
  | plain hquote _ _ => exact hquote hc.symm
  | escape _ => exact absurd hc (by decide)
  | quote hlast htwo hrest =>
    cases body with
    | nil => exact hlast rfl
    | cons d body =>
      obtain ⟨rfl, hbody⟩ := List.cons.inj hbody
      cases body with
      | nil =>
        cases hrest with
        | plain hquote _ _ => exact hquote rfl
        | quote hlast _ _ => exact hlast rfl
      | cons e body =>
        obtain ⟨rfl, -⟩ := List.cons.inj (List.cons.inj hbody).2
        exact htwo ⟨body, rfl⟩

theorem BlockQuoted.unique (h : BlockQuoted body) (h' : BlockQuoted body')
    (heq : body ++ (textBlockQuote ++ rest) = body' ++ (textBlockQuote ++ rest')) : body = body' ∧ rest = rest' := by
  induction h generalizing body' with
  | nil =>
    cases body' with
    | nil => exact ⟨rfl, List.append_cancel_left heq⟩
    | cons c body' => exact absurd heq h'.not_quotes
  | @plain c text hquote hescape htext ih =>
    cases h' with
    | nil => exact absurd heq.symm (BlockQuoted.plain hquote hescape htext).not_quotes
    | plain _ _ hrest' =>
      obtain ⟨rfl, htail⟩ := List.cons.inj heq
      obtain ⟨rfl, hsame⟩ := ih hrest' htail
      exact ⟨rfl, hsame⟩
    | escape _ => exact absurd (List.cons.inj heq).1 hescape
    | quote _ _ _ => exact absurd (List.cons.inj heq).1 hquote
  | @escape c text htext ih =>
    cases h' with
    | nil => exact absurd heq.symm (BlockQuoted.escape htext).not_quotes
    | plain _ hescape _ => exact absurd (List.cons.inj heq).1.symm hescape
    | escape hrest' =>
      obtain ⟨rfl, htail⟩ := List.cons.inj (List.cons.inj heq).2
      obtain ⟨rfl, hsame⟩ := ih hrest' htail
      exact ⟨rfl, hsame⟩
    | quote _ _ _ => exact absurd (List.cons.inj heq).1 (by decide)
  | @quote text hlast htwo htext ih =>
    cases h' with
    | nil => exact absurd heq.symm (BlockQuoted.quote hlast htwo htext).not_quotes
    | plain hquote _ _ => exact absurd (List.cons.inj heq).1.symm hquote
    | escape _ => exact absurd (List.cons.inj heq).1 (by decide)
    | quote _ _ hrest' =>
      obtain ⟨rfl, hsame⟩ := ih hrest' (List.cons.inj heq).2
      exact ⟨rfl, hsame⟩

end Literals

-- Tokens

structure IsWordPart (isPart : Char → Bool) : Prop where
  blank : ∀ c, IsBlank c → isPart c = false
  symbol : ∀ c ∈ ['/', '"', '\'', '\x7b', '\x7d'], isPart c = false

section Tokens

variable {isPart : Char → Bool} {token token' rest rest' : Text} {tokens tokens' : List Text} {text after : Text}

theorem Ends.startsToken (hpart : IsWordPart isPart) (htoken : IsToken isPart token) (h : Ends isPart token rest) :
    StartsToken (token ++ rest) := by
  cases htoken with
  | word hne hword =>
    obtain ⟨c, token, rfl⟩ := List.exists_cons_of_ne_nil hne
    have hc := hword c List.mem_cons_self
    have hslash : c ≠ '/' := by
      rintro rfl
      exact absurd hc (Bool.eq_false_iff.mp (hpart.symbol _ (by decide)))
    refine ⟨fun d hd hblank => ?_, fun hprefix => ?_, fun hprefix => ?_⟩
    · obtain rfl : c = d := Option.some.inj hd
      exact absurd hc (Bool.eq_false_iff.mp (hpart.blank c hblank))
    · exact hslash (List.cons_prefix_cons.mp hprefix).1.symm
    · exact hslash (List.cons_prefix_cons.mp hprefix).1.symm
  | @symbol c _ hblank _ =>
    have hslash : ∀ d, d = '/' ∨ d = '*' → ¬ ['/', d] <+: [c] ++ rest := by
      rintro d hd ⟨more, hmore⟩
      obtain ⟨rfl, hrest⟩ := List.cons.inj hmore
      have hends := h.slash rfl d (congrArg List.head? hrest.symm)
      exact hd.elim hends.1 hends.2
    exact ⟨fun d hd => Option.some.inj hd ▸ hblank, hslash '/' (.inl rfl), hslash '*' (.inr rfl)⟩
  | string _ =>
    exact ⟨fun d hd => Option.some.inj hd ▸ by decide, fun hprefix => absurd (List.cons_prefix_cons.mp hprefix).1 (by decide),
      fun hprefix => absurd (List.cons_prefix_cons.mp hprefix).1 (by decide)⟩
  | character _ _ =>
    exact ⟨fun d hd => Option.some.inj hd ▸ by decide, fun hprefix => absurd (List.cons_prefix_cons.mp hprefix).1 (by decide),
      fun hprefix => absurd (List.cons_prefix_cons.mp hprefix).1 (by decide)⟩
  | textBlock _ =>
    exact ⟨fun d hd => Option.some.inj hd ▸ by decide, fun hprefix => absurd (List.cons_prefix_cons.mp hprefix).1 (by decide),
      fun hprefix => absurd (List.cons_prefix_cons.mp hprefix).1 (by decide)⟩

theorem nil_of_word {more : Text} (hne : token ≠ []) (hword : ∀ c ∈ token ++ more, isPart c)
    (h : Ends isPart token (more ++ rest)) : more = [] := by
  cases more with
  | nil => rfl
  | cons c more =>
    have hlast := hword _ (List.mem_append_left _ (List.getLast_mem hne))
    have hc := hword c (List.mem_append_right _ List.mem_cons_self)
    exact absurd ⟨hlast, hc⟩ (h.word _ (List.getLast_mem_getLast? hne) c rfl)

theorem eq_of_word (hword : ∀ c ∈ token, isPart c) (hword' : ∀ c ∈ token', isPart c) (hne : token ≠ []) (hne' : token' ≠ [])
    (h : Ends isPart token rest) (h' : Ends isPart token' rest') (heq : token ++ rest = token' ++ rest') :
    token = token' ∧ rest = rest' := by
  rcases List.append_eq_append_iff.mp heq with ⟨more, rfl, rfl⟩ | ⟨more, rfl, rfl⟩
  · obtain rfl := nil_of_word hne hword' h
    exact ⟨(List.append_nil token).symm, rfl⟩
  · obtain rfl := nil_of_word hne' hword h'
    exact ⟨List.append_nil token', rfl⟩

theorem not_textBlock_of_string {body more : Text} (hbody : Quoted '"' body) (h : Ends isPart ('"' :: (body ++ ['"'])) rest) :
    '"' :: (body ++ ['"']) ++ rest ≠ textBlockQuote ++ more := by
  intro heq
  cases hbody with
  | nil =>
    have hrest : rest = '"' :: more := (List.cons.inj (List.cons.inj heq).2).2
    exact h.empty rfl '"' (hrest ▸ rfl) rfl
  | plain hquote _ _ _ => exact hquote (List.cons.inj (List.cons.inj heq).2).1
  | escape _ _ => exact absurd (List.cons.inj (List.cons.inj heq).2).1 (by decide)

theorem not_word_of_symbol {c : Char} (hc : isPart c = false) (hword : ∀ d ∈ token, isPart d) (hne : token ≠ []) :
    token ++ rest ≠ c :: rest' := by
  obtain ⟨d, token, rfl⟩ := List.exists_cons_of_ne_nil hne
  intro heq
  obtain ⟨rfl, -⟩ := List.cons.inj heq
  exact absurd (hword d List.mem_cons_self) (Bool.eq_false_iff.mp hc)

/-- **A token ends where its characters say.** -/
theorem IsToken.unique (hpart : IsWordPart isPart) (htoken : IsToken isPart token) (htoken' : IsToken isPart token')
    (h : Ends isPart token rest) (h' : Ends isPart token' rest') (heq : token ++ rest = token' ++ rest') :
    token = token' ∧ rest = rest' := by
  have hquote : isPart '"' = false ∧ isPart '\'' = false :=
    ⟨hpart.symbol _ (by decide), hpart.symbol _ (by decide)⟩
  cases htoken with
  | word hne hword =>
    cases htoken' with
    | word hne' hword' => exact eq_of_word hword hword' hne hne' h h' heq
    | symbol hc _ _ => exact absurd heq (not_word_of_symbol hc hword hne)
    | string _ => exact absurd heq (not_word_of_symbol hquote.1 hword hne)
    | character _ _ => exact absurd heq (not_word_of_symbol hquote.2 hword hne)
    | textBlock _ => exact absurd heq (not_word_of_symbol hquote.1 hword hne)
  | symbol hc _ hquotes =>
    cases htoken' with
    | word hne' hword' => exact absurd heq.symm (not_word_of_symbol hc hword' hne')
    | symbol _ _ _ =>
      obtain ⟨rfl, hrest⟩ := List.cons.inj heq
      exact ⟨rfl, hrest⟩
    | string _ => exact absurd (List.cons.inj heq).1 hquotes.1
    | character _ _ => exact absurd (List.cons.inj heq).1 hquotes.2
    | textBlock _ => exact absurd (List.cons.inj heq).1 hquotes.1
  | @string body hbody =>
    cases htoken' with
    | word hne' hword' => exact absurd heq.symm (not_word_of_symbol hquote.1 hword' hne')
    | symbol _ _ hquotes => exact absurd (List.cons.inj heq).1.symm hquotes.1
    | @string body' hbody' =>
      simp only [List.cons_append, List.append_assoc, List.nil_append, List.cons.injEq, true_and] at heq
      obtain ⟨rfl, hrest⟩ := hbody.unique hbody' (by decide) heq
      exact ⟨rfl, hrest⟩
    | character _ _ => exact absurd (List.cons.inj heq).1 (by decide)
    | textBlock _ =>
      rw [List.append_assoc textBlockQuote] at heq
      exact absurd heq (not_textBlock_of_string hbody h)
  | @character body _ hbody =>
    cases htoken' with
    | word hne' hword' => exact absurd heq.symm (not_word_of_symbol hquote.2 hword' hne')
    | symbol _ _ hquotes => exact absurd (List.cons.inj heq).1.symm hquotes.2
    | string _ => exact absurd (List.cons.inj heq).1 (by decide)
    | @character body' _ hbody' =>
      simp only [List.cons_append, List.append_assoc, List.nil_append, List.cons.injEq, true_and] at heq
      obtain ⟨rfl, hrest⟩ := hbody.unique hbody' (by decide) heq
      exact ⟨rfl, hrest⟩
    | textBlock _ => exact absurd (List.cons.inj heq).1 (by decide)
  | @textBlock body hbody =>
    cases htoken' with
    | word hne' hword' => exact absurd heq.symm (not_word_of_symbol hquote.1 hword' hne')
    | symbol _ _ hquotes => exact absurd (List.cons.inj heq).1.symm hquotes.1
    | string hbody' =>
      rw [List.append_assoc textBlockQuote] at heq
      exact absurd heq.symm (not_textBlock_of_string hbody' h')
    | character _ _ => exact absurd (List.cons.inj heq).1 (by decide)
    | textBlock hbody' =>
      rw [List.append_assoc, List.append_assoc, List.append_assoc, List.append_assoc] at heq
      obtain ⟨rfl, hrest⟩ := hbody.unique hbody' (List.append_cancel_left heq)
      exact ⟨rfl, hrest⟩

theorem Spelled.length_le (h : Spelled isPart after tokens text) : after.length ≤ text.length := by
  induction h with
  | nil => exact Nat.le_refl _
  | cons _ _ _ _ ih =>
    rw [List.length_append, List.length_append]
    omega

/-- **A text has one list of tokens.** -/
theorem Spelled.unique (hpart : IsWordPart isPart) (h : Spelled isPart after tokens text)
    (h' : Spelled isPart after tokens' text) : tokens = tokens' := by
  have hlonger : ∀ {gap token rest : Text} {tokens : List Text}, IsToken isPart token → Spelled isPart after tokens rest →
      after ≠ gap ++ (token ++ rest) := by
    intro gap token rest tokens htoken hrest heq
    have hle := hrest.length_le
    have hpos := List.length_pos_iff.mpr htoken.ne_nil
    have hlength := congrArg List.length heq
    rw [List.length_append, List.length_append] at hlength
    omega
  generalize htext : text = text' at h'
  induction h generalizing tokens' text' with
  | nil =>
    cases h' with
    | nil => rfl
    | cons _ htoken _ hrest => exact absurd htext (hlonger htoken hrest)
  | cons hgap htoken hends hrest ih =>
    cases h' with
    | nil => exact absurd htext.symm (hlonger htoken hrest)
    | cons hgap' htoken' hends' hrest' =>
      obtain ⟨rfl, htail⟩ := hgap.unique hgap' (hends.startsToken hpart htoken) (hends'.startsToken hpart htoken') htext
      obtain ⟨rfl, rfl⟩ := htoken.unique hpart htoken' hends hends' htail
      rw [ih _ rfl hrest']

end Tokens

end JavaLexis
