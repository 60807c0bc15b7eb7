import JMan.Config.Manifest
import JMan.Lib.Encoding
import JMan.Lib.Lines
import JMan.Lib.Numbers
import JMan.Lib.OsText
import JMan.Lib.Template

/-!
# JMan — messages of the language server

`read_message` and `write_message` of `protocol.rs`: messages are JSON values behind
header lines that say how many bytes they take. A reader is given what is left of the
stream and gives what it leaves; the text of a value is a parameter.

* `framing` — messages written one after the other are read as they were written, and no
  proper part of a frame is read as a message.
-/

namespace JMan.Lsp

open JMan.Config
open Encoding (Bytes utf8 utf8_append)

-- Reading
-- ---

def maxMessageBytes : Nat := 16 * 1024 * 1024

inductive ProtocolError where
  | io (error : String)
  | missingContentLength
  | invalidHeader
  | messageTooLarge
  | invalidJson (error : String)
deriving DecidableEq

/-- `read_until(b'\n')`: the line with its end, and what follows. -/
def splitLine : Bytes → Bytes × Bytes
  | [] => ([], [])
  | byte :: rest =>
    if byte = 10 then ([byte], rest) else (byte :: (splitLine rest).1, (splitLine rest).2)

def text? (bytes : Bytes) : Option String := String.fromUTF8? ⟨bytes.toArray⟩

/-- `name.eq_ignore_ascii_case("content-length")` -/
def isContentLength (name : List Char) : Bool := name.map Char.toLower = "content-length".toList

/-- `str::parse::<usize>` -/
def parseUsize : List Char → Option Nat := Numbers.parseUnsigned 18446744073709551615

/-- What a header line says, after what the ones before said. -/
def readHeader (contentLength : Option Nat) (header : String) : Except ProtocolError (Option Nat) :=
  match Template.splitOnce ':' (Lines.trimEnd whiteSpace header.toList) with
  | none => .error .invalidHeader
  | some (name, value) =>
    if isContentLength name then
      match parseUsize (Lines.trim whiteSpace value) with
      | none => .error .invalidHeader
      | some parsed =>
        if contentLength.any fun previous => previous ≠ parsed then .error .invalidHeader
        else .ok (some parsed)
    else .ok contentLength

theorem length_splitLine (input : Bytes) :
    (splitLine input).1.length + (splitLine input).2.length = input.length := by
  induction input with
  | nil => rfl
  | cons byte rest ih =>
    rw [splitLine]
    split
    · rw [List.length_singleton, List.length_cons, Nat.add_comm]
    · show (splitLine rest).1.length + 1 + (splitLine rest).2.length = rest.length + 1
      omega

/-- The loop over the header lines: where there are none at all, there is no message. -/
def readHeaders (contentLength : Option Nat) (sawHeader : Bool) (input : Bytes) :
    Except ProtocolError (Option (Option Nat × Bytes)) :=
  match text? (splitLine input).1 with
  | none => .error (.io "stream did not contain valid UTF-8")
  | some header =>
    if _hend : (splitLine input).1 = [] then
      if sawHeader then .error .invalidHeader else .ok none
    else if header = "\r\n" ∨ header = "\n" then .ok (some (contentLength, (splitLine input).2))
    else
      match readHeader contentLength header with
      | .error error => .error error
      | .ok contentLength => readHeaders contentLength true (splitLine input).2
termination_by input.length
decreasing_by
  have hsplit := length_splitLine input
  have hline : 0 < (splitLine input).1.length := List.length_pos_iff.mpr _hend
  omega

section Messages

variable {α : Type} (parse : Bytes → Except String α) (print : α → Bytes)

def readMessage (input : Bytes) : Except ProtocolError (Option (α × Bytes)) :=
  match readHeaders none false input with
  | .error error => .error error
  | .ok none => .ok none
  | .ok (some (none, _)) => .error .missingContentLength
  | .ok (some (some length, rest)) =>
    if length > maxMessageBytes then .error .messageTooLarge
    else if rest.length < length then .error (.io "failed to fill whole buffer")
    else
      match parse (rest.take length) with
      | .error error => .error (.invalidJson error)
      | .ok message => .ok (some (message, rest.drop length))

def writeMessage (message : α) : Bytes :=
  let body := print message
  utf8 ("Content-Length: " ++ toString body.length ++ "\r\n\r\n") ++ body

inductive ReadsAll : Bytes → List α → Prop where
  | done {input : Bytes} (hnone : readMessage parse input = .ok none) : ReadsAll input []
  | next {input rest : Bytes} {message : α} {messages : List α}
      (hread : readMessage parse input = .ok (some (message, rest)))
      (hrest : ReadsAll rest messages) : ReadsAll input (message :: messages)

end Messages

-- Frames
-- ---

def IsLine (line : Bytes) : Prop := ∃ content : Bytes, 10 ∉ content ∧ line = content ++ [10]

def IsBlank (line : Bytes) : Prop := text? line = some "\r\n" ∨ text? line = some "\n"

def Says (line : Bytes) (before after : Option Nat) : Prop :=
  IsLine line ∧ ¬ IsBlank line ∧ ∃ header, text? line = some header ∧ readHeader before header = .ok after

/-- Header lines, and what is known after them. -/
inductive SayTogether : List Bytes → Option Nat → Option Nat → Prop where
  | nil (known : Option Nat) : SayTogether [] known known
  | cons {line : Bytes} {lines : List Bytes} {before known after : Option Nat}
      (hline : Says line before known) (hlines : SayTogether lines known after) :
      SayTogether (line :: lines) before after

/-- Header lines, a blank line, and a body of the length they say. -/
def Frame {α : Type} (parse : Bytes → Except String α) (frame : Bytes) (message : α) : Prop :=
  ∃ (headers : List Bytes) (blank body : Bytes), frame = headers.flatten ++ (blank ++ body) ∧
    SayTogether headers none (some body.length) ∧ IsLine blank ∧ IsBlank blank ∧
    body.length ≤ maxMessageBytes ∧ parse body = .ok message

-- Lines
-- ---

section Lines

variable {input content rest line : Bytes} {text : String}

theorem text?_utf8 (text : String) : text? (utf8 text) = some text := Encoding.fromUTF8?_utf8 text

theorem eq_utf8_of_text? (h : text? input = some text) : input = utf8 text := Encoding.eq_utf8_of_fromUTF8? h

theorem splitLine_append (h : 10 ∉ content) (rest : Bytes) :
    splitLine (content ++ 10 :: rest) = (content ++ [10], rest) := by
  induction content with
  | nil => rfl
  | cons byte content ih =>
    have hbyte : byte ≠ 10 := fun heq => h (heq ▸ List.mem_cons_self)
    rw [List.cons_append, splitLine, if_neg hbyte, ih fun hmem => h (List.mem_cons_of_mem _ hmem)]
    rfl

theorem splitLine_cases (input : Bytes) :
    (∃ content rest, 10 ∉ content ∧ input = content ++ 10 :: rest) ∨
      (10 ∉ input ∧ splitLine input = (input, [])) := by
  induction input with
  | nil => exact .inr ⟨List.not_mem_nil, rfl⟩
  | cons byte input ih =>
    by_cases hbyte : byte = 10
    · exact .inl ⟨[], input, List.not_mem_nil, by rw [hbyte]; rfl⟩
    · rcases ih with ⟨content, rest, hcontent, rfl⟩ | ⟨hnone, hsplit⟩
      · refine .inl ⟨byte :: content, rest, fun hmem => ?_, rfl⟩
        exact (List.mem_cons.mp hmem).elim (fun heq => hbyte heq.symm) hcontent
      · refine .inr ⟨fun hmem => (List.mem_cons.mp hmem).elim (fun heq => hbyte heq.symm) hnone, ?_⟩
        rw [splitLine, if_neg hbyte, hsplit]

theorem not_isBlank (h : 10 ∉ input) : ¬ IsBlank input := by
  have hends : (10 : UInt8) ∈ utf8 "\r\n" ∧ (10 : UInt8) ∈ utf8 "\n" := by decide
  rintro (hblank | hblank)
  · exact h (eq_utf8_of_text? hblank ▸ hends.1)
  · exact h (eq_utf8_of_text? hblank ▸ hends.2)

theorem isBlank_iff (h : text? line = some text) : IsBlank line ↔ text = "\r\n" ∨ text = "\n" := by
  rw [IsBlank, h, Option.some.injEq, Option.some.injEq]

end Lines

-- Frames are what is read
-- ---

section Frames

variable {known after : Option Nat} {saw : Bool} {input rest line : Bytes} {headers : List Bytes}

theorem readHeaders_nil (known : Option Nat) : readHeaders known true [] = .error .invalidHeader := by
  have htext : text? [] = some "" := by decide
  rw [readHeaders, splitLine, htext]
  rfl

theorem readHeaders_line (h : IsLine line) (known : Option Nat) (saw : Bool) (rest : Bytes) :
    readHeaders known saw (line ++ rest) =
      match text? line with
      | none => .error (.io "stream did not contain valid UTF-8")
      | some header =>
        if header = "\r\n" ∨ header = "\n" then .ok (some (known, rest))
        else
          match readHeader known header with
          | .error error => .error error
          | .ok known => readHeaders known true rest := by
  obtain ⟨content, hcontent, rfl⟩ := h
  rw [readHeaders, List.append_assoc, List.singleton_append, splitLine_append hcontent]
  dsimp only
  split
  · rfl
  · rw [dif_neg (List.append_ne_nil_of_right_ne_nil _ (List.cons_ne_nil _ _))]

theorem readHeaders_of_no_line (h : 10 ∉ input) (known : Option Nat) (saw : Bool) :
    ∀ found, readHeaders known saw input ≠ .ok (some found) := by
  intro found hfound
  obtain ⟨-, hsplit⟩ := (splitLine_cases input).resolve_left (by
    rintro ⟨content, rest, -, rfl⟩
    exact h (List.mem_append_right _ List.mem_cons_self))
  rw [readHeaders, hsplit] at hfound
  dsimp only at hfound
  split at hfound
  · cases hfound
  · next header htext =>
    split at hfound
    · split at hfound <;> cases hfound
    · rw [if_neg fun hblank => not_isBlank h ((isBlank_iff htext).mpr hblank)] at hfound
      split at hfound
      · cases hfound
      · rw [readHeaders_nil] at hfound
        cases hfound

theorem readHeaders_sound : ∀ (bound : Nat) (input : Bytes) (known : Option Nat) (saw : Bool),
    input.length ≤ bound → readHeaders known saw input = .ok (some (after, rest)) →
    ∃ headers blank, input = headers.flatten ++ (blank ++ rest) ∧ SayTogether headers known after ∧
      IsLine blank ∧ IsBlank blank := by
  intro bound
  induction bound with
  | zero =>
    intro input known saw hbound h
    obtain rfl := List.length_eq_zero_iff.mp (Nat.le_zero.mp hbound)
    exact absurd h (readHeaders_of_no_line List.not_mem_nil known saw _)
  | succ bound ih =>
    intro input known saw hbound h
    rcases splitLine_cases input with ⟨content, more, hcontent, rfl⟩ | ⟨hnone, -⟩
    · have hline : IsLine (content ++ [10]) := ⟨content, hcontent, rfl⟩
      rw [List.append_cons, readHeaders_line hline] at h
      split at h
      · cases h
      · next header htext =>
        split at h
        · next hblank =>
          cases h
          exact ⟨[], content ++ [10], by simp, .nil _, hline, (isBlank_iff htext).mpr hblank⟩
        · next hnot =>
          split at h
          · cases h
          · next said hsaid =>
            have hshorter : more.length ≤ bound := by
              rw [List.length_append, List.length_cons] at hbound
              omega
            obtain ⟨headers, blank, rfl, hsay, hends⟩ := ih more said true hshorter h
            refine ⟨(content ++ [10]) :: headers, blank, by simp, .cons ⟨hline, ?_, header, htext, hsaid⟩ hsay,
              hends⟩
            exact fun hblank => hnot ((isBlank_iff htext).mp hblank)
    · exact absurd h (readHeaders_of_no_line hnone known saw _)

theorem SayTogether.readHeaders (h : SayTogether headers known after) {blank : Bytes} (hline : IsLine blank)
    (hblank : IsBlank blank) (saw : Bool) (rest : Bytes) :
    readHeaders known saw (headers.flatten ++ (blank ++ rest)) = .ok (some (after, rest)) := by
  induction h generalizing saw with
  | nil known =>
    rw [List.flatten_nil, List.nil_append, readHeaders_line hline]
    rcases hblank with htext | htext <;> rw [htext] <;> rfl
  | @cons line lines before known after hsays _ ih =>
    obtain ⟨hline', hnot, header, htext, hsaid⟩ := hsays
    rw [List.flatten_cons, List.append_assoc, readHeaders_line hline', htext]
    dsimp only
    rw [if_neg fun hends => hnot ((isBlank_iff htext).mpr hends), hsaid]
    exact ih true

variable {α : Type} {parse : Bytes → Except String α} {print : α → Bytes} {message : α} {frame : Bytes}

/-- **A message is returned exactly where a frame stands,** and the frame is what is
consumed. -/
theorem readMessage_eq_some : readMessage parse input = .ok (some (message, rest)) ↔
    ∃ frame, Frame parse frame message ∧ input = frame ++ rest := by
  constructor
  · intro h
    unfold readMessage at h
    split at h
    · cases h
    · cases h
    · cases h
    · next length more hheaders =>
      split at h
      · cases h
      · next hsmall =>
        split at h
        · cases h
        · next henough =>
          split at h
          · cases h
          · next found hparse =>
            obtain ⟨rfl, rfl⟩ := Prod.mk.inj (Option.some.inj (Except.ok.inj h))
            obtain ⟨headers, blank, rfl, hsay, hline, hblank⟩ :=
              readHeaders_sound _ input none false (Nat.le_refl _) hheaders
            have hlength : (more.take length).length = length :=
              List.length_take_of_le (Nat.le_of_not_lt henough)
            refine ⟨headers.flatten ++ (blank ++ more.take length), ⟨headers, blank, more.take length, rfl,
              hlength.symm ▸ hsay, hline, hblank, hlength.symm ▸ Nat.le_of_not_lt hsmall, hparse⟩, ?_⟩
            rw [List.append_assoc, List.append_assoc, List.take_append_drop]
  · rintro ⟨frame, ⟨headers, blank, body, rfl, hsay, hline, hblank, hsmall, hparse⟩, rfl⟩
    unfold readMessage
    rw [List.append_assoc, List.append_assoc, hsay.readHeaders hline hblank]
    dsimp only
    rw [if_neg (Nat.not_lt.mpr hsmall), if_neg (by simp), List.take_left, List.drop_left, hparse]

theorem readHeaders_eq_none : ∀ (bound : Nat) (input : Bytes) (known : Option Nat) (saw : Bool),
    input.length ≤ bound → readHeaders known saw input = .ok none → input = [] ∧ saw = false := by
  intro bound
  induction bound with
  | zero =>
    intro input known saw hbound h
    obtain rfl := List.length_eq_zero_iff.mp (Nat.le_zero.mp hbound)
    cases saw with
    | false => exact ⟨rfl, rfl⟩
    | true =>
      rw [readHeaders_nil] at h
      cases h
  | succ bound ih =>
    intro input known saw hbound h
    have hlater : ∀ said more, more.length ≤ bound → readHeaders said true more ≠ .ok none :=
      fun said more hmore hnone => Bool.noConfusion (ih more said true hmore hnone).2
    rcases splitLine_cases input with ⟨content, more, hcontent, rfl⟩ | ⟨hnone, hsplit⟩
    · rw [List.append_cons, readHeaders_line ⟨content, hcontent, rfl⟩] at h
      rw [List.length_append, List.length_cons] at hbound
      split at h
      · cases h
      · split at h
        · cases h
        · split at h
          · cases h
          · exact absurd h (hlater _ more (by omega))
    · rw [readHeaders, hsplit] at h
      dsimp only at h
      split at h
      · cases h
      · split at h
        · next hempty =>
          cases saw with
          | false => exact ⟨hempty, rfl⟩
          | true => cases h
        · split at h
          · cases h
          · split at h
            · cases h
            · exact absurd h (hlater _ [] (Nat.zero_le _))

theorem readMessage_eq_none : readMessage parse input = .ok none ↔ input = [] := by
  constructor
  · intro h
    unfold readMessage at h
    split at h
    · cases h
    · next hheaders => exact (readHeaders_eq_none _ input none false (Nat.le_refl _) hheaders).1
    · cases h
    · split at h
      · cases h
      · split at h
        · cases h
        · split at h <;> cases h
  · rintro rfl
    have hnone : readHeaders none false [] = .ok none := by
      have htext : text? [] = some "" := by decide
      rw [readHeaders, splitLine, htext]
      rfl
    rw [readMessage, hnone]

theorem Frame.cut (h : Frame parse frame message) {front back : Bytes} (hframe : frame = front ++ back)
    (hback : back ≠ []) : (front = [] ∧ readMessage parse front = .ok none) ∨
      ∃ error, readMessage parse front = .error error := by
  cases hread : readMessage parse front with
  | error error => exact .inr ⟨error, rfl⟩
  | ok found =>
    cases found with
    | none => exact .inl ⟨readMessage_eq_none.mp hread, rfl⟩
    | some found =>
      -- the message of the part would be read from the whole frame, with more left over
      obtain ⟨other, hother, hfront⟩ := readMessage_eq_some.mp hread
      have hwhole : readMessage parse (frame ++ []) = .ok (some (message, [])) :=
        readMessage_eq_some.mpr ⟨frame, h, rfl⟩
      have hpart : readMessage parse (frame ++ []) = .ok (some (found.1, found.2 ++ back)) :=
        readMessage_eq_some.mpr ⟨other, hother, by rw [List.append_nil, hframe, hfront, List.append_assoc]⟩
      have hleft := congrArg Prod.snd (Option.some.inj (Except.ok.inj (hwhole.symm.trans hpart)))
      exact absurd (List.append_eq_nil_iff.mp hleft.symm).2 hback

end Frames

-- What is written is a frame
-- ---

section Written

variable {α : Type} {parse : Bytes → Except String α} {print : α → Bytes} {message : α} {length : Nat}

theorem toNat_of_isDigit {c : Char} (h : c.isDigit) : 48 ≤ c.toNat ∧ c.toNat ≤ 57 := by
  unfold Char.isDigit at h
  rw [Bool.and_eq_true, decide_eq_true_iff, decide_eq_true_iff] at h
  exact h

theorem not_whiteSpace_of_isDigit {c : Char} (h : c.isDigit) : whiteSpace c = false := by
  have hrange := toNat_of_isDigit h
  simp only [whiteSpace, Bool.or_eq_false_iff, Bool.and_eq_false_iff, decide_eq_false_iff_not]
  omega

theorem isDigit_of_mem_toDigits {c : Char} (h : c ∈ Nat.toDigits 10 length) : c.isDigit :=
  Nat.isDigit_of_mem_toDigits (by decide) (by decide) h

theorem trimmed_toDigits (length : Nat) : Lines.Trimmed whiteSpace (Nat.toDigits 10 length) where
  first := fun _ hc => not_whiteSpace_of_isDigit (isDigit_of_mem_toDigits (List.mem_of_mem_head? hc))
  last := fun _ hc => not_whiteSpace_of_isDigit (isDigit_of_mem_toDigits (List.mem_of_mem_getLast? hc))

def headerOf (name digits : List Char) : List Char := name ++ ':' :: ' ' :: digits

theorem trimEnd_headerOf (name : List Char) {digits : List Char} (h : Lines.Trimmed whiteSpace digits)
    (hne : digits ≠ []) :
    Lines.trimEnd whiteSpace (headerOf name digits ++ ['\r'] ++ ['\n']) = headerOf name digits := by
  have hends : whiteSpace '\r' = true ∧ whiteSpace '\n' = true := by decide
  have hlast : ∀ c ∈ (headerOf name digits).getLast?, whiteSpace c = false := by
    intro c hc
    rw [headerOf, List.append_cons, List.append_cons, List.getLast?_append_of_ne_nil _ hne] at hc
    exact h.last c hc
  rw [Lines.trimEnd, List.rdropWhile_concat_pos _ _ _ hends.2, List.rdropWhile_concat_pos _ _ _ hends.1]
  exact Lines.trimEnd_of_last hlast

theorem trim_space {digits : List Char} (h : Lines.Trimmed whiteSpace digits) :
    Lines.trim whiteSpace (' ' :: digits) = digits := by
  have hblank : Lines.trimStart whiteSpace (' ' :: digits) = Lines.trimStart whiteSpace digits :=
    List.dropWhile_cons_of_pos (by decide)
  rw [Lines.trim, hblank]
  exact Lines.trim_of_trimmed h

theorem toList_header (length : Nat) :
    ("Content-Length: " ++ toString length ++ "\r\n").toList =
      headerOf "Content-Length".toList (Nat.toDigits 10 length) ++ ['\r'] ++ ['\n'] := by
  have hfront : "Content-Length: ".toList = "Content-Length".toList ++ [':', ' '] := by decide
  have hdigits : (toString length).toList = Nat.toDigits 10 length := Nat.toList_repr
  have hend : "\r\n".toList = ['\r'] ++ ['\n'] := by decide
  rw [String.toList_append, String.toList_append, hfront, hdigits, hend, headerOf]
  simp only [List.append_assoc, List.cons_append, List.nil_append]

theorem readHeader_written (hfits : length ≤ 18446744073709551615) :
    readHeader none ("Content-Length: " ++ toString length ++ "\r\n") = .ok (some length) := by
  have hsplit : Template.splitOnce ':' (headerOf "Content-Length".toList (Nat.toDigits 10 length)) =
      some ("Content-Length".toList, ' ' :: Nat.toDigits 10 length) :=
    Template.splitOnce_eq_some.mpr ⟨rfl, by decide⟩
  have hname : isContentLength "Content-Length".toList = true := by decide
  have hread : parseUsize (Nat.toDigits 10 length) = some length := Numbers.parseUnsigned_zeros 0 hfits
  unfold readHeader
  rw [toList_header, trimEnd_headerOf _ (trimmed_toDigits length) Nat.toDigits_ne_nil, hsplit]
  dsimp only
  rw [if_pos hname, trim_space (trimmed_toDigits length), hread]
  rfl

theorem newline_not_mem_header (length : Nat) :
    10 ∉ utf8 ("Content-Length: " ++ toString length ++ "\r") := by
  have htable : ∀ d : Fin 10, (10 : UInt8) ∉ String.utf8EncodeChar (Char.ofNat (48 + d)) := by decide
  have hdigits : ∀ c ∈ Nat.toDigits 10 length, (10 : UInt8) ∉ String.utf8EncodeChar c := by
    intro c hc
    obtain ⟨hlow, hhigh⟩ := toNat_of_isDigit (isDigit_of_mem_toDigits hc)
    have hdigit : 48 + (c.toNat - 48) = c.toNat := by omega
    have hchar := htable ⟨c.toNat - 48, by omega⟩
    rwa [hdigit, Char.ofNat_toNat] at hchar
  have hnumber : (10 : UInt8) ∉ utf8 (toString length) := by
    rw [utf8, OsText.toUTF8_eq_flatMap, List.mem_flatMap]
    rintro ⟨c, hc, hmem⟩
    exact hdigits c ((Nat.toList_repr : (toString length).toList = _) ▸ hc) hmem
  rw [utf8_append, utf8_append, List.append_assoc, List.mem_append, List.mem_append, not_or, not_or]
  exact ⟨by decide, hnumber, by decide⟩

/-- **What is written is a frame,** if the message is not too large. -/
theorem frame_writeMessage (hjson : parse (print message) = .ok message)
    (hsmall : (print message).length ≤ maxMessageBytes) :
    Frame parse (writeMessage print message) message := by
  have hfits : (print message).length ≤ 18446744073709551615 := by
    unfold maxMessageBytes at hsmall
    omega
  have hend : ("\r\n" : String) = "\r" ++ "\n" := by decide
  have hlines : ("\r\n\r\n" : String) = "\r\n" ++ "\r\n" := by decide
  have hnewline : utf8 "\n" = [10] := by decide
  have hheader : IsLine (utf8 ("Content-Length: " ++ toString (print message).length ++ "\r\n")) := by
    refine ⟨_, newline_not_mem_header (print message).length, ?_⟩
    rw [hend, ← String.append_assoc, utf8_append _ "\n", hnewline]
  have hnot : ¬ IsBlank (utf8 ("Content-Length: " ++ toString (print message).length ++ "\r\n")) := by
    have hcolon : ':' ∈ ("Content-Length: " ++ toString (print message).length ++ "\r\n").toList := by
      rw [toList_header, List.append_assoc]
      exact List.mem_append_left _ (List.mem_append_right _ List.mem_cons_self)
    rw [isBlank_iff (text?_utf8 _)]
    rintro (heq | heq) <;> exact absurd (heq ▸ hcolon) (by decide)
  refine ⟨[utf8 ("Content-Length: " ++ toString (print message).length ++ "\r\n")], utf8 "\r\n", print message,
    ?_, .cons ⟨hheader, hnot, _, text?_utf8 _, readHeader_written hfits⟩ (.nil _), ?_, .inl (text?_utf8 _),
    hsmall, hjson⟩
  · rw [writeMessage, hlines, ← String.append_assoc, utf8_append, List.flatten_singleton, List.append_assoc]
  · exact ⟨[13], by decide, by decide⟩

theorem readsAll_writeMessage (hjson : ∀ message, parse (print message) = .ok message) (messages : List α)
    (hsmall : ∀ message ∈ messages, (print message).length ≤ maxMessageBytes) :
    ReadsAll parse (messages.flatMap (writeMessage print)) messages := by
  induction messages with
  | nil => exact .done (readMessage_eq_none.mpr rfl)
  | cons message messages ih =>
    have hframe := frame_writeMessage (hjson message) (hsmall message List.mem_cons_self)
    refine .next (readMessage_eq_some.mpr ⟨_, hframe, List.flatMap_cons⟩) ?_
    exact ih fun other hother => hsmall other (List.mem_cons_of_mem _ hother)

/-- **Messages that are written one after the other are read as they were written,** if
they keep to the limit; every message that is read is a frame, and the frame is all that
is consumed; and no proper part of a frame is a message. -/
theorem framing (hjson : ∀ message, parse (print message) = .ok message) :
    (∀ messages : List α, (∀ message ∈ messages, (print message).length ≤ maxMessageBytes) →
      ReadsAll parse (messages.flatMap (writeMessage print)) messages) ∧
    (∀ input (message : α) rest, readMessage parse input = .ok (some (message, rest)) ↔
      ∃ frame, Frame parse frame message ∧ input = frame ++ rest) ∧
    ∀ (message : α) front back, Frame parse (front ++ back) message → back ≠ [] →
      (front = [] ∧ readMessage parse front = .ok none) ∨ ∃ error, readMessage parse front = .error error :=
  ⟨readsAll_writeMessage hjson, fun _ _ _ => readMessage_eq_some, fun _ _ _ hframe => hframe.cut rfl⟩

/-- Only null, for which the text of a value is one text. -/
theorem framing_null :
    ReadsAll (fun bytes => if bytes = utf8 "null" then .ok () else .error "expected value")
      ([(), ()].flatMap (writeMessage fun _ => utf8 "null")) [(), ()] :=
  (framing fun _ => if_pos rfl).1 [(), ()] fun _ _ => by decide

end Written

end JMan.Lsp
