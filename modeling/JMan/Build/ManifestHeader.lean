import Mathlib.Data.Bool.AllAny
import JMan.Build.FatJar
import JMan.Lib.Folding

/-!
# JMan — headers of a JAR manifest

`append_manifest_header` of `jman-build/src/lib.rs` breaks a header at 70 bytes,
between two characters. What it writes is a folded line in the sense of
`JMan.Lib.Folding`.

* `manifestHeader_folded` — the lines of a header are short, whole characters, and make it up again.
-/

namespace JMan.Build

open Encoding (utf8 utf8_append length_utf8)
open Folding (folded lineEnd splitInclusive unfold continuation Unbroken)

def OneLine (text : String) : Prop := ∀ c ∈ text.toList, c ≠ '\r' ∧ c ≠ '\n'

theorem OneLine.unbroken {text : String} (h : OneLine text) : Unbroken (utf8 text) := by
  intro hmem
  have hascii : (13 : UInt8).toNat < 128 := by decide
  exact (h '\r' ((OsText.ascii_mem_toUTF8 hascii text).mp hmem)).1 rfl

theorem OneLine.append {left right : String} (hleft : OneLine left) (hright : OneLine right) :
    OneLine (left ++ right) := by
  intro c hc
  rw [String.toList_append] at hc
  rcases List.mem_append.mp hc with hc | hc
  · exact hleft c hc
  · exact hright c hc

-- Breaking
-- ---

/-- The parts a header is broken into, from a line on: what the line still takes,
and the parts of the lines that follow. -/
structure Broken (line : String) (chars : List Char) (last : String) (more : List String) : Prop where
  written : utf8 (headerLines line chars) = folded (utf8 (line ++ last)) (more.map utf8)
  whole : last.toList ++ more.flatMap String.toList = chars
  short : (line ++ last).utf8ByteSize ≤ 70
  shortMore : ∀ part ∈ more, part.utf8ByteSize + 1 ≤ 70

theorem Broken.fold {line last : String} {c : Char} {rest : List Char} {more : List String}
    (hline : line.utf8ByteSize ≤ 70) (hfull : line.utf8ByteSize + c.utf8Size > 70)
    (h : Broken (" " ++ c.toString) rest last more) :
    Broken line (c :: rest) "" ((c.toString ++ last) :: more) where
  written := by
    have hend : utf8 "\r\n" = lineEnd := by decide
    have hnext : utf8 (" " ++ c.toString ++ last) = 32 :: utf8 (c.toString ++ last) := by
      rw [String.append_assoc, utf8_append, show utf8 " " = [32] by decide]
      rfl
    rw [headerLines, if_pos hfull, utf8_append, utf8_append, hend, h.written, folded, hnext]
    simp [folded, continuation]
  whole := by
    simpa using h.whole
  short := by simpa using hline
  shortMore := by
    have hshort := h.short
    simp only [String.utf8ByteSize_append] at hshort
    rw [List.forall_mem_cons]
    refine ⟨?_, h.shortMore⟩
    have hspace : " ".utf8ByteSize = 1 := by decide
    rw [String.utf8ByteSize_append]
    omega

theorem Broken.keep {line last : String} {c : Char} {rest : List Char} {more : List String}
    (hfits : line.utf8ByteSize + c.utf8Size ≤ 70)
    (h : Broken (line ++ c.toString) rest last more) :
    Broken line (c :: rest) (c.toString ++ last) more where
  written := by
    rw [headerLines, if_neg (by omega), h.written, String.append_assoc]
  whole := by simpa using h.whole
  short := by simpa [Nat.add_assoc] using h.short
  shortMore := h.shortMore

/-- **A header is broken into parts that fit,** and none of it is lost. -/
theorem exists_broken (chars : List Char) {line : String} (hline : line.utf8ByteSize ≤ 70) :
    ∃ last more, Broken line chars last more := by
  induction chars generalizing line with
  | nil =>
    refine ⟨"", [], ?_, rfl, by simpa using hline, by simp⟩
    show utf8 (line ++ "\r\n") = _
    simp [folded, continuation, utf8_append, show utf8 "\r\n" = lineEnd by decide]
  | cons c rest ih =>
    by_cases hfull : line.utf8ByteSize + c.utf8Size > 70
    · have hnext : (" " ++ c.toString).utf8ByteSize ≤ 70 := by
        have hspace : " ".utf8ByteSize = 1 := by decide
        have hchar := c.utf8Size_le_four
        rw [String.utf8ByteSize_append, hspace]
        simp
        omega
      obtain ⟨last, more, hbroken⟩ := ih hnext
      exact ⟨_, _, hbroken.fold hline hfull⟩
    · have hnext : (line ++ c.toString).utf8ByteSize ≤ 70 := by
        rw [String.utf8ByteSize_append]
        simp
        omega
      obtain ⟨last, more, hbroken⟩ := ih hnext
      exact ⟨_, _, hbroken.keep (by omega)⟩

-- A header
-- ---

theorem Broken.oneLine {line last : String} {chars : List Char} {more : List String}
    (h : Broken line chars last more) (hline : OneLine line)
    (hchars : ∀ c ∈ chars, c ≠ '\r' ∧ c ≠ '\n') :
    OneLine (line ++ last) ∧ ∀ part ∈ more, OneLine part := by
  rw [← h.whole, List.forall_mem_append] at hchars
  refine ⟨hline.append hchars.1, fun part hpart c hc => ?_⟩
  exact hchars.2 c (List.mem_flatMap.mpr ⟨part, hpart, hc⟩)

theorem utf8_whole {last : String} {more : List String} {chars : List Char}
    (h : last.toList ++ more.flatMap String.toList = chars) :
    utf8 last ++ (more.map utf8).flatten = utf8 (String.ofList chars) := by
  subst h
  induction more generalizing last with
  | nil => simp
  | cons part more ih =>
    have hnext := @ih (last ++ part)
    rw [utf8_append, String.toList_append] at hnext
    simpa using hnext

/-- **A header is folded into short lines of whole characters.** Every line ends in a
carriage return and a line feed and has 72 bytes at most, lines after the first start
with a space, and without the breaks the header is as it was. -/
theorem manifestHeader_folded {name value : String} (hshort : name.utf8ByteSize + 2 ≤ 70)
    (hname : OneLine name) (hvalue : OneLine value) :
    (∀ line ∈ splitInclusive (utf8 (manifestHeader name value)),
      line.length ≤ 72 ∧ ∃ text : String, line = utf8 text ++ lineEnd) ∧
    (∀ line ∈ (splitInclusive (utf8 (manifestHeader name value))).tail,
      ∃ text : String, line = 32 :: utf8 text ++ lineEnd) ∧
    unfold (utf8 (manifestHeader name value)) = utf8 (name ++ ": " ++ value ++ "\r\n") := by
  have hprefix : (name ++ ": ").utf8ByteSize ≤ 70 := by
    rw [String.utf8ByteSize_append]
    exact hshort
  have hcolon : OneLine ": " := List.all_iff_forall_prop.mp (by decide)
  obtain ⟨last, more, h⟩ := exists_broken value.toList hprefix
  obtain ⟨hfirst, hmore⟩ := h.oneLine (hname.append hcolon) hvalue
  have hunbroken : ∀ part ∈ more.map utf8, Unbroken part := by
    intro part hpart
    obtain ⟨text, htext, rfl⟩ := List.mem_map.mp hpart
    exact (hmore text htext).unbroken
  have hwritten : utf8 (manifestHeader name value) =
      folded (utf8 (name ++ ": " ++ last)) (more.map utf8) := h.written
  rw [hwritten, Folding.splitInclusive_folded hfirst.unbroken hunbroken,
    Folding.unfold_folded hfirst.unbroken hunbroken]
  refine ⟨?_, ?_, ?_⟩
  · rw [List.forall_mem_cons]
    constructor
    · refine ⟨?_, _, rfl⟩
      have hlength := h.short
      rw [List.length_append, length_utf8]
      show _ + 2 ≤ 72
      omega
    · simp only [List.map_map, List.forall_mem_map]
      intro part hpart
      have hlength := h.shortMore part hpart
      refine ⟨?_, " " ++ part, ?_⟩
      · show (utf8 part ++ lineEnd).length + 1 ≤ 72
        rw [List.length_append, length_utf8]
        show _ + 2 + 1 ≤ 72
        omega
      · rw [utf8_append, show utf8 " " = [32] by decide]
        rfl
  · simp only [List.tail_cons, List.map_map, List.forall_mem_map]
    exact fun part _ => ⟨part, rfl⟩
  · have hwhole := utf8_whole h.whole
    rw [String.ofList_toList] at hwhole
    rw [utf8_append (name ++ ": ") last, List.append_assoc (utf8 (name ++ ": ")), hwhole, utf8_append,
      utf8_append, utf8_append (name ++ ": "), utf8_append name]
    simp [show utf8 "\r\n" = lineEnd by decide]

theorem manifestHeader_folded_mainClass :
    unfold (utf8 (manifestHeader "Main-Class" "dev.App")) = utf8 "Main-Class: dev.App\r\n" := by
  exact (manifestHeader_folded (by decide) (List.all_iff_forall_prop.mp (by decide))
    (List.all_iff_forall_prop.mp (by decide))).2.2

end JMan.Build
