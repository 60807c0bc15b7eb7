import Mathlib.Data.UInt
import JMan.Lib.Encoding
import JMan.Lib.Splice
import JMan.Lsp.Documents

/-!
# JMan — semantic tokens

The semantic tokens of `server.rs`: five integers for each token, sent whole or as the
difference to what was sent before. What was sent is kept under its result id, in a
cache that is emptied when it is full.

An editor that applies the edits of an answer holds what a full answer has
(`delta_agrees`). Result ids come from a counter of 64 bits that starts again
(`resultId_reused`).
-/

namespace JMan.Lsp

open JMan.Config
open Splice (common splice)

-- Tokens as integers
-- ---

structure SemanticToken where
  line : Nat
  character : Nat
  length : Nat
  tokenType : Nat
  modifiers : Nat
deriving DecidableEq

/-- The loop of `semantic_token_data`, over the tokens that are kept, in their order. -/
def tokenData (previousLine previousCharacter : Nat) : List SemanticToken → List Nat
  | [] => []
  | token :: rest =>
    let deltaLine := token.line - previousLine
    let deltaStart := if deltaLine = 0 then token.character - previousCharacter else token.character
    deltaLine :: deltaStart :: token.length :: token.tokenType :: token.modifiers ::
      tokenData token.line token.character rest

theorem five_dvd_length_tokenData (tokens : List SemanticToken) (line character : Nat) :
    5 ∣ (tokenData line character tokens).length := by
  induction tokens generalizing line character with
  | nil => exact dvd_zero 5
  | cons token rest ih =>
    obtain ⟨count, hcount⟩ := ih token.line token.character
    refine ⟨count + 1, ?_⟩
    show (tokenData token.line token.character rest).length + 5 = 5 * (count + 1)
    omega

-- Edits
-- ---

/-- A `SemanticTokensEdit`. -/
structure TokenEdit where
  start : Nat
  deleteCount : Nat
  data : Option (List Nat)
deriving DecidableEq

def TokenEdit.apply (edit : TokenEdit) (data : List Nat) : List Nat :=
  splice edit.start edit.deleteCount (edit.data.getD []) data

/-- Edits count in the array they are applied to, so the last one is applied first. -/
def applyEdits (edits : List TokenEdit) (data : List Nat) : List Nat :=
  edits.foldr TokenEdit.apply data

def TokenEdit.Whole (edit : TokenEdit) : Prop :=
  5 ∣ edit.start ∧ 5 ∣ edit.deleteCount ∧ 5 ∣ (edit.data.getD []).length

/-- `count - count % 5` -/
def wholeTokens (count : Nat) : Nat := count - count % 5

def tokenPrefix (previous current : List Nat) : Nat := wholeTokens (common previous current)

def tokenSuffix (previous current : List Nat) : Nat :=
  let maximumSuffix := min previous.length current.length - tokenPrefix previous current
  wholeTokens (((previous.reverse.zip current.reverse).take maximumSuffix).takeWhile
    fun pair => pair.1 = pair.2).length

def semanticTokenDelta (previous current : List Nat) : List TokenEdit :=
  let start := tokenPrefix previous current
  let suffix := tokenSuffix previous current
  let deleteCount := previous.length - (start + suffix)
  let replacement := (current.drop start).take (current.length - suffix - start)
  if deleteCount = 0 ∧ replacement = [] then []
  else if replacement = [] then [⟨start, deleteCount, none⟩]
  else [⟨start, deleteCount, some replacement⟩]

section Delta

variable {previous current : List Nat}

theorem five_dvd_wholeTokens (count : Nat) : 5 ∣ wholeTokens count :=
  Nat.dvd_sub_mod count

theorem wholeTokens_le (count : Nat) : wholeTokens count ≤ count := Nat.sub_le _ _

theorem tokenPrefix_le (previous current : List Nat) :
    tokenPrefix previous current ≤ common previous current := wholeTokens_le _

theorem tokenSuffix_le (previous current : List Nat) :
    tokenSuffix previous current ≤ common previous.reverse current.reverse ∧
      tokenPrefix previous current + tokenSuffix previous current ≤ previous.length ∧
      tokenPrefix previous current + tokenSuffix previous current ≤ current.length := by
  have hshort : ∀ (pairs : List (Nat × Nat)) (n : Nat),
      ((pairs.take n).takeWhile fun pair => pair.1 = pair.2).length =
        min n (pairs.takeWhile fun pair => pair.1 = pair.2).length := by
    intro pairs n
    rw [← List.take_takeWhile, List.length_take]
  have hprefix := (tokenPrefix_le previous current).trans (Splice.common_le_length previous current).1
  have hprefix' := (tokenPrefix_le previous current).trans (Splice.common_le_length previous current).2
  have hsuffix : tokenSuffix previous current ≤
      min previous.length current.length - tokenPrefix previous current :=
    (wholeTokens_le _).trans ((hshort _ _).trans_le (min_le_left _ _))
  refine ⟨(wholeTokens_le _).trans ((hshort _ _).trans_le (min_le_right _ _)), ?_, ?_⟩
  · omega
  · omega

/-- **Applying the difference gives what it is the difference to.** -/
theorem applyEdits_semanticTokenDelta (previous current : List Nat) :
    applyEdits (semanticTokenDelta previous current) previous = current := by
  obtain ⟨hsuffix, hprevious, hcurrent⟩ := tokenSuffix_le previous current
  have hsplice := Splice.splice_between (tokenPrefix_le previous current) hsuffix hprevious hcurrent
  unfold semanticTokenDelta
  simp only
  split
  · next h =>
    rw [h.1, h.2, splice, List.append_nil, Nat.add_zero, List.take_append_drop] at hsplice
    exact hsplice
  · split
    · next h =>
      rw [h] at hsplice
      exact hsplice
    · exact hsplice

/-- **The difference is about whole tokens.** -/
theorem whole_of_mem_semanticTokenDelta (hprevious : 5 ∣ previous.length)
    (hcurrent : 5 ∣ current.length) {edit : TokenEdit}
    (h : edit ∈ semanticTokenDelta previous current) : edit.Whole := by
  obtain ⟨-, -, hlength⟩ := tokenSuffix_le previous current
  have hstart : 5 ∣ tokenPrefix previous current := five_dvd_wholeTokens _
  have hsuffix : 5 ∣ tokenSuffix previous current := five_dvd_wholeTokens _
  have hdelete : 5 ∣ previous.length - (tokenPrefix previous current + tokenSuffix previous current) :=
    Nat.dvd_sub hprevious (Nat.dvd_add hstart hsuffix)
  have hreplacement : 5 ∣ ((current.drop (tokenPrefix previous current)).take
      (current.length - tokenSuffix previous current - tokenPrefix previous current)).length := by
    rw [List.length_take, List.length_drop, min_eq_left (by omega)]
    exact Nat.dvd_sub (Nat.dvd_sub hcurrent hsuffix) hstart
  unfold semanticTokenDelta at h
  simp only at h
  split at h
  · cases h
  · split at h
    · rw [List.mem_singleton.mp h]
      exact ⟨hstart, hdelete, dvd_zero 5⟩
    · rw [List.mem_singleton.mp h]
      exact ⟨hstart, hdelete, hreplacement⟩

end Delta

-- The cache
-- ---

structure SemanticTokenSnapshot where
  uri : String
  data : List Nat

/-- The part of the server that remembers what it has sent. -/
structure TokenCache where
  sequence : UInt64
  snapshots : BTreeMap SemanticTokenSnapshot

def semanticTokenCacheCapacity : Nat := 32

def TokenCache.empty : TokenCache := ⟨0, ∅⟩

/-- `store_semantic_tokens` -/
def TokenCache.store (cache : TokenCache) (uri : String) (data : List Nat) : String × TokenCache :=
  let snapshots := if cache.snapshots.size ≥ semanticTokenCacheCapacity then ∅ else cache.snapshots
  let sequence := cache.sequence + 1
  let resultId := toString sequence.toNat
  (resultId, ⟨sequence, snapshots.insert resultId ⟨uri, data⟩⟩)

/-- A request for the tokens of a document, which are these now; one for a difference
names the result it is to. -/
structure TokenRequest where
  uri : String
  tokens : List SemanticToken
  previousResultId : Option String

def TokenRequest.data (request : TokenRequest) : List Nat := tokenData 0 0 request.tokens

inductive TokenAnswer where
  | full (resultId : String) (data : List Nat)
  | edits (resultId : String) (edits : List TokenEdit)

/-- The snapshot a difference is to, if it is of the same document. -/
def TokenCache.previous? (cache : TokenCache) (request : TokenRequest) : Option (List Nat) :=
  ((request.previousResultId.bind fun previousId => cache.snapshots[previousId]?).filter
    fun snapshot => snapshot.uri = request.uri).map SemanticTokenSnapshot.data

/-- `semantic_tokens_full` and `semantic_tokens_delta` -/
def TokenCache.answer (cache : TokenCache) (request : TokenRequest) : TokenAnswer × TokenCache :=
  let previous := cache.previous? request
  let stored := cache.store request.uri request.data
  match previous with
  | none => (.full stored.1 request.data, stored.2)
  | some previous => (.edits stored.1 (semanticTokenDelta previous request.data), stored.2)

-- The editor
-- ---

structure HeldTokens where
  resultId : String
  uri : String
  data : List Nat
deriving DecidableEq

def heldUnder (held : List HeldTokens) (resultId : String) : Option HeldTokens :=
  held.find? fun entry => entry.resultId = resultId

/-- What an editor makes of an answer: the data it is sent, or what it holds under the
previous result id with the edits applied. -/
def receive (held : List HeldTokens) (request : TokenRequest) : TokenAnswer → HeldTokens
  | .full resultId data => ⟨resultId, request.uri, data⟩
  | .edits resultId edits =>
    ⟨resultId, request.uri, applyEdits edits (((request.previousResultId.bind
      (heldUnder held)).map HeldTokens.data).getD [])⟩

/-- A server and an editor, after some requests. -/
structure TokenExchange where
  cache : TokenCache
  held : List HeldTokens

def TokenExchange.step (exchange : TokenExchange) (request : TokenRequest) : TokenExchange :=
  let answered := exchange.cache.answer request
  ⟨answered.2, receive exchange.held request answered.1 :: exchange.held⟩

def TokenExchange.run (requests : List TokenRequest) : TokenExchange :=
  requests.foldl TokenExchange.step ⟨.empty, []⟩

def sentTokens (requests : List TokenRequest) : List HeldTokens :=
  requests.zipIdx.map fun request =>
    ⟨toString ((request.2 + 1) % 18446744073709551616), request.1.uri, request.1.data⟩

section Exchange

variable {exchange : TokenExchange} {requests : List TokenRequest} {request : TokenRequest}
  {cache : TokenCache} {held : List HeldTokens} {resultId : String}

/-- What is in the cache is what the editor holds under its result id. -/
def Mirrored (cache : TokenCache) (held : List HeldTokens) : Prop :=
  ∀ resultId snapshot, cache.snapshots[resultId]? = some snapshot →
    heldUnder held resultId = some ⟨resultId, snapshot.uri, snapshot.data⟩ ∧ 5 ∣ snapshot.data.length

theorem previous?_eq_some {previous : List Nat} (h : cache.previous? request = some previous) :
    ∃ previousId, request.previousResultId = some previousId ∧
      cache.snapshots[previousId]? = some ⟨request.uri, previous⟩ := by
  obtain ⟨⟨uri, data⟩, hsnapshot, rfl⟩ := Option.map_eq_some_iff.mp h
  obtain ⟨hfound, huri⟩ := Option.filter_eq_some_iff.mp hsnapshot
  obtain ⟨previousId, hprevious, hentry⟩ := Option.bind_eq_some_iff.mp hfound
  obtain rfl : uri = request.uri := of_decide_eq_true huri
  exact ⟨previousId, hprevious, hentry⟩

theorem answer_cases (cache : TokenCache) (request : TokenRequest) :
    cache.answer request = (.full (cache.store request.uri request.data).1 request.data,
        (cache.store request.uri request.data).2) ∨
      ∃ previous, cache.previous? request = some previous ∧
        cache.answer request = (.edits (cache.store request.uri request.data).1
          (semanticTokenDelta previous request.data), (cache.store request.uri request.data).2) := by
  unfold TokenCache.answer
  simp only
  split
  · exact Or.inl rfl
  · next previous hprevious => exact Or.inr ⟨previous, hprevious, rfl⟩

theorem snd_answer (cache : TokenCache) (request : TokenRequest) :
    (cache.answer request).2 = (cache.store request.uri request.data).2 := by
  rcases answer_cases cache request with h | ⟨previous, -, h⟩
  · rw [h]
  · rw [h]

/-- **An editor holds what a full answer has.** -/
theorem receive_answer (h : Mirrored cache held) (request : TokenRequest) :
    receive held request (cache.answer request).1 =
      ⟨(cache.store request.uri request.data).1, request.uri, request.data⟩ := by
  rcases answer_cases cache request with hfull | ⟨previous, hprevious, hedits⟩
  · rw [hfull]
    rfl
  · obtain ⟨previousId, hid, hsnapshot⟩ := previous?_eq_some hprevious
    rw [hedits, receive, hid, Option.bind_some, (h previousId _ hsnapshot).1]
    show HeldTokens.mk _ _ (applyEdits (semanticTokenDelta previous request.data) previous) = _
    rw [applyEdits_semanticTokenDelta]

theorem getElem?_store (cache : TokenCache) (uri resultId : String) (data : List Nat) :
    (cache.store uri data).2.snapshots[resultId]? =
      if (cache.store uri data).1 = resultId then some ⟨uri, data⟩
      else if cache.snapshots.size ≥ semanticTokenCacheCapacity then none
      else cache.snapshots[resultId]? := by
  rw [TokenCache.store]
  dsimp only
  rw [Std.ExtTreeMap.getElem?_insert]
  by_cases hid : toString (cache.sequence + 1).toNat = resultId
  · rw [if_pos (compare_eq_iff_eq.mpr hid), if_pos hid]
  · rw [if_neg (fun hcompare => hid (compare_eq_iff_eq.mp hcompare)), if_neg hid]
    split
    · exact Std.ExtTreeMap.getElem?_empty
    · rfl

theorem heldUnder_cons (entry : HeldTokens) (held : List HeldTokens) (resultId : String) :
    heldUnder (entry :: held) resultId =
      if entry.resultId = resultId then some entry else heldUnder held resultId := by
  rw [heldUnder, List.find?_cons]
  by_cases hid : entry.resultId = resultId
  · rw [decide_eq_true hid, if_pos hid]
  · rw [decide_eq_false hid, if_neg hid]
    rfl

/-- **A step keeps the cache and the editor alike.** -/
theorem mirrored_step (h : Mirrored exchange.cache exchange.held) (request : TokenRequest) :
    Mirrored (exchange.step request).cache (exchange.step request).held := by
  intro resultId snapshot hsnapshot
  rw [TokenExchange.step, snd_answer, getElem?_store] at hsnapshot
  rw [TokenExchange.step, receive_answer h, heldUnder_cons]
  by_cases hid : (exchange.cache.store request.uri request.data).1 = resultId
  · rw [if_pos hid] at hsnapshot ⊢
    cases hsnapshot
    rw [hid]
    exact ⟨rfl, five_dvd_length_tokenData _ _ _⟩
  · rw [if_neg hid] at hsnapshot ⊢
    split at hsnapshot
    · cases hsnapshot
    · exact h resultId snapshot hsnapshot

theorem run_append (requests : List TokenRequest) (request : TokenRequest) :
    TokenExchange.run (requests ++ [request]) = (TokenExchange.run requests).step request := by
  rw [TokenExchange.run, List.foldl_append]
  rfl

theorem mirrored_run (requests : List TokenRequest) :
    Mirrored (TokenExchange.run requests).cache (TokenExchange.run requests).held := by
  induction requests using List.reverseRecOn with
  | nil =>
    intro resultId snapshot hsnapshot
    rw [TokenExchange.run, List.foldl_nil, TokenCache.empty, Std.ExtTreeMap.getElem?_empty]
      at hsnapshot
    cases hsnapshot
  | append_singleton requests request ih =>
    rw [run_append]
    exact mirrored_step ih request

theorem sequence_run (requests : List TokenRequest) :
    (TokenExchange.run requests).cache.sequence.toNat = requests.length % 18446744073709551616 := by
  induction requests using List.reverseRecOn with
  | nil => rfl
  | append_singleton requests request ih =>
    rw [run_append, TokenExchange.step, snd_answer, TokenCache.store, List.length_append]
    show ((TokenExchange.run requests).cache.sequence + 1).toNat = _
    rw [UInt64.toNat_add, ih]
    show (requests.length % 18446744073709551616 + 1) % 18446744073709551616 =
      (requests.length + 1) % 18446744073709551616
    omega

/-- **The editor holds all it was sent,** in full, under the ids it was sent with. -/
theorem held_run (requests : List TokenRequest) :
    (TokenExchange.run requests).held = (sentTokens requests).reverse := by
  induction requests using List.reverseRecOn with
  | nil => rfl
  | append_singleton requests request ih =>
    have hid : ((TokenExchange.run requests).cache.store request.uri request.data).1 =
        toString ((requests.length + 1) % 18446744073709551616) := by
      show toString ((TokenExchange.run requests).cache.sequence + 1).toNat = _
      rw [UInt64.toNat_add, sequence_run]
      show toString ((requests.length % 18446744073709551616 + 1) % 18446744073709551616) = _
      rw [Nat.mod_add_mod]
    rw [run_append, TokenExchange.step, receive_answer (mirrored_run requests), hid, ih, sentTokens,
      sentTokens, List.zipIdx_append, List.map_append, List.reverse_append, Nat.zero_add]
    rfl

theorem mem_held_run {entry : HeldTokens} (h : entry ∈ (TokenExchange.run requests).held) :
    ∃ index < requests.length, ∃ request, requests[index]? = some request ∧
      entry = ⟨toString ((index + 1) % 18446744073709551616), request.uri, request.data⟩ := by
  rw [held_run, List.mem_reverse] at h
  obtain ⟨⟨request, index⟩, hmem, rfl⟩ := List.mem_map.mp h
  have hrequest := List.mem_zipIdx_iff_getElem?.mp hmem
  exact ⟨index, (List.getElem?_eq_some_iff.mp hrequest).1, request, hrequest, rfl⟩

theorem eq_of_mem_held {entry entry' : HeldTokens} (hlength : requests.length ≤ 18446744073709551616)
    (h : entry ∈ (TokenExchange.run requests).held) (h' : entry' ∈ (TokenExchange.run requests).held)
    (hid : entry.resultId = entry'.resultId) : entry = entry' := by
  obtain ⟨index, hindex, request, hrequest, rfl⟩ := mem_held_run h
  obtain ⟨index', hindex', request', hrequest', rfl⟩ := mem_held_run h'
  have hsame := Encoding.numeral_injective hid
  obtain rfl : index = index' := by omega
  obtain rfl := Option.some.inj (hrequest.symm.trans hrequest')
  rfl

/-- **Differences agree with full results.** In every run an answer has the full data, or
whole-token edits that make it of what was last sent under the previous result id, for
the same document; and up to `2 ^ 64` results no id is used twice. -/
theorem delta_agrees (requests : List TokenRequest) (request : TokenRequest) :
    (∀ resultId data, ((TokenExchange.run requests).cache.answer request).1 = .full resultId data →
      data = request.data) ∧
    (∀ resultId edits, ((TokenExchange.run requests).cache.answer request).1 = .edits resultId edits →
      (∀ edit ∈ edits, edit.Whole) ∧
      ∃ previousId sent, request.previousResultId = some previousId ∧
        heldUnder (TokenExchange.run requests).held previousId =
          some ⟨previousId, request.uri, sent⟩ ∧
        applyEdits edits sent = request.data) ∧
    (requests.length ≤ 18446744073709551616 → ∀ entry ∈ (TokenExchange.run requests).held,
      ∀ entry' ∈ (TokenExchange.run requests).held, entry.resultId = entry'.resultId →
        entry = entry') := by
  refine ⟨fun resultId data hfull => ?_, fun resultId edits hedits => ?_,
    fun hlength entry h entry' h' => eq_of_mem_held hlength h h'⟩
  · rcases answer_cases (TokenExchange.run requests).cache request with h | ⟨previous, -, h⟩
    · rw [h] at hfull
      cases hfull
      rfl
    · rw [h] at hfull
      cases hfull
  · rcases answer_cases (TokenExchange.run requests).cache request with h | ⟨previous, hprevious, h⟩
    · rw [h] at hedits
      cases hedits
    · rw [h] at hedits
      cases hedits
      obtain ⟨previousId, hid, hsnapshot⟩ := previous?_eq_some hprevious
      obtain ⟨hheld, hwhole⟩ := mirrored_run requests previousId _ hsnapshot
      exact ⟨fun edit hedit =>
          whole_of_mem_semanticTokenDelta hwhole (five_dvd_length_tokenData _ _ _) hedit,
        previousId, previous, hid, hheld, applyEdits_semanticTokenDelta _ _⟩

end Exchange

-- Ids that are used again
-- ---

def plainToken (length : Nat) : SemanticToken := ⟨0, 0, length, 1, 0⟩

/-- After `2 ^ 64` results the first id is given again, and a difference is to what the
second result of that id had. -/
theorem resultId_reused : ∃ requests request edits entry,
    requests.length = 18446744073709551617 ∧ request.previousResultId = some "1" ∧
    ((TokenExchange.run requests).cache.answer request).1 = .edits "2" edits ∧
    entry ∈ (TokenExchange.run requests).held ∧ entry.resultId = "1" ∧ entry.uri = request.uri ∧
    applyEdits edits entry.data ≠ request.data := by
  let first : TokenRequest := ⟨"a", [plainToken 1, plainToken 2], none⟩
  let second : TokenRequest := ⟨"a", [plainToken 3], none⟩
  let request : TokenRequest := ⟨"a", [plainToken 4], some "1"⟩
  obtain ⟨others, hothers⟩ : ∃ others : List TokenRequest, others.length = 18446744073709551615 :=
    ⟨List.replicate 18446744073709551615 first, List.length_replicate⟩
  have hbefore : (first :: others).length = 18446744073709551616 := by
    rw [List.length_cons, hothers]
  have hid : ((TokenExchange.run (first :: others)).cache.store "a" second.data).1 = "1" := by
    show toString ((TokenExchange.run (first :: others)).cache.sequence + 1).toNat = _
    rw [UInt64.toNat_add, sequence_run, hbefore]
    rfl
  have hprevious : (TokenExchange.run ((first :: others) ++ [second])).cache.previous? request =
      some second.data := by
    have hsnapshot : (TokenExchange.run ((first :: others) ++ [second])).cache.snapshots["1"]? =
        some ⟨"a", second.data⟩ := by
      rw [run_append, TokenExchange.step, snd_answer, getElem?_store, if_pos hid]
    rw [TokenCache.previous?]
    show ((TokenExchange.run ((first :: others) ++ [second])).cache.snapshots["1"]?.filter
      fun snapshot => snapshot.uri = "a").map _ = _
    rw [hsnapshot]
    rfl
  have hfirst : HeldTokens.mk "1" "a" first.data ∈
      (TokenExchange.run ((first :: others) ++ [second])).held := by
    rw [held_run, List.mem_reverse]
    have hone : toString ((0 + 1) % 18446744073709551616) = "1" := by decide
    exact hone ▸ List.mem_map.mpr ⟨(first, 0), List.mem_zipIdx_iff_getElem?.mpr rfl, rfl⟩
  have hnext : ((TokenExchange.run ((first :: others) ++ [second])).cache.store "a"
      request.data).1 = "2" := by
    show toString ((TokenExchange.run ((first :: others) ++ [second])).cache.sequence + 1).toNat = _
    rw [UInt64.toNat_add, sequence_run, List.length_append, hbefore, List.length_singleton]
    rfl
  refine ⟨(first :: others) ++ [second], request, semanticTokenDelta second.data request.data,
    _, ?_, rfl, ?_, hfirst, rfl, rfl, ?_⟩
  · rw [List.length_append, hbefore]
    rfl
  · rw [TokenCache.answer, hprevious, ← hnext]
  · decide

end JMan.Lsp
