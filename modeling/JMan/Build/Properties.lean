import Mathlib.Order.WithBot
import Mathlib.Data.Finset.Lattice.Basic
import JMan.Build.FatArchive

/-!
# JMan — merged properties

What `merge_properties_entry` and `merge_property_list_entry` write, read again.
Keys and values are cut out of their lines and written back as they stand, with
what escapes they contain. A key or a value that ends in an escape takes what
follows it along (`properties_merge_iff`).
-/

namespace JMan.Build

open JMan.Config
open Encoding (Bytes utf8)
open Lines (Text Trimmed IsLine)

-- Escapes
-- ---

section Escapes

variable {key value text rest : Text} {c : Char}

/-- A text ends in a backslash that is not itself escaped. -/
def EndsEscaping (text : Text) : Prop := trailingSlashes text % 2 = 1

instance (text : Text) : Decidable (EndsEscaping text) := inferInstanceAs (Decidable (_ = _))

theorem trailingSlashes_concat_slash (text : Text) :
    trailingSlashes (text ++ ['\\']) = trailingSlashes text + 1 := by
  rw [trailingSlashes, List.reverse_append]
  rfl

theorem trailingSlashes_concat (text : Text) (h : c ≠ '\\') : trailingSlashes (text ++ [c]) = 0 := by
  rw [trailingSlashes, List.reverse_append]
  show ((c :: text.reverse).takeWhile _).length = 0
  rw [List.takeWhile_cons_of_neg (by simpa using h)]
  rfl

theorem trailingSlashes_append (text : Text) (h : c ≠ '\\') :
    trailingSlashes (text ++ c :: value) = trailingSlashes value := by
  induction value using List.reverseRecOn with
  | nil => exact trailingSlashes_concat text h
  | append_singleton before last ih =>
    rw [← List.cons_append, ← List.append_assoc]
    by_cases hlast : last = '\\'
    · rw [hlast, trailingSlashes_concat_slash, trailingSlashes_concat_slash, ih]
    · rw [trailingSlashes_concat _ hlast, trailingSlashes_concat _ hlast]

def escapedAfter (escaped : Bool) : Text → Bool
  | [] => escaped
  | c :: rest => escapedAfter (!escaped && c = '\\') rest

theorem escapedAfter_append (escaped : Bool) (text rest : Text) :
    escapedAfter escaped (text ++ rest) = escapedAfter (escapedAfter escaped text) rest := by
  induction text generalizing escaped with
  | nil => rfl
  | cons c text ih => exact ih _

theorem escapedAfter_iff (text : Text) : escapedAfter false text = true ↔ EndsEscaping text := by
  unfold EndsEscaping
  induction text using List.reverseRecOn with
  | nil => decide
  | append_singleton before last ih =>
    rw [escapedAfter_append]
    show (!escapedAfter false before && decide (last = '\\')) = true ↔ _
    rw [Bool.and_eq_true, Bool.not_eq_true', decide_eq_true_eq, ← Bool.not_eq_true, ih]
    by_cases hlast : last = '\\'
    · rw [hlast, trailingSlashes_concat_slash, and_iff_left rfl]
      omega
    · rw [trailingSlashes_concat _ hlast]
      exact iff_of_false (fun h => hlast h.2) (by omega)

theorem splitSeparator_cons {escaped : Bool} (h : escaped = true ∨ ¬ IsSeparator c) (rest : Text) :
    splitSeparator escaped (c :: rest) =
      (splitSeparator (!escaped && decide (c = '\\')) rest).map fun split =>
        (c :: split.1, split.2) := by
  rw [splitSeparator]
  cases escaped with
  | true => rfl
  | false =>
    have hseparator : ¬ IsSeparator c := h.resolve_left Bool.false_ne_true
    by_cases hslash : c = '\\'
    · simp [hslash]
    · simp only [hslash, decide_false, Bool.and_false, Bool.false_eq_true, if_false]
      rw [if_neg hseparator]

theorem splitSeparator_of_separator (h : IsSeparator c) (rest : Text) :
    splitSeparator false (c :: rest) = some ([], c, rest) := by
  have hslash : c ≠ '\\' := by
    rintro rfl
    exact absurd h (by decide)
  rw [splitSeparator, if_neg Bool.false_ne_true, if_neg hslash, if_pos h]

theorem splitSeparator_eq_some {escaped : Bool} {before : Text}
    (h : splitSeparator escaped text = some (before, c, rest)) :
    text = before ++ c :: rest ∧ splitSeparator escaped before = none ∧
      escapedAfter escaped before = false ∧ IsSeparator c := by
  induction text generalizing escaped before with
  | nil => cases h
  | cons first text ih =>
    by_cases hfirst : escaped = true ∨ ¬ IsSeparator first
    · rw [splitSeparator_cons hfirst] at h
      obtain ⟨⟨before, c, rest⟩, hsplit, heq⟩ := Option.map_eq_some_iff.mp h
      cases heq
      obtain ⟨rfl, hclosed, hafter, hseparator⟩ := ih hsplit
      refine ⟨rfl, ?_, hafter, hseparator⟩
      rw [splitSeparator_cons hfirst, hclosed]
      rfl
    · obtain ⟨hescaped, hseparator⟩ := not_or.mp hfirst
      rw [Bool.not_eq_true] at hescaped
      subst hescaped
      rw [splitSeparator_of_separator (not_not.mp hseparator)] at h
      cases h
      exact ⟨rfl, rfl, rfl, not_not.mp hseparator⟩

theorem splitSeparator_append {escaped : Bool} (h : splitSeparator escaped text = none)
    (rest : Text) : splitSeparator escaped (text ++ rest) =
      (splitSeparator (escapedAfter escaped text) rest).map fun split =>
        (text ++ split.1, split.2) := by
  induction text generalizing escaped with
  | nil =>
    show splitSeparator escaped rest = (splitSeparator escaped rest).map id
    rw [Option.map_id, id]
  | cons first text ih =>
    have hfirst : escaped = true ∨ ¬ IsSeparator first := by
      by_contra hfree
      obtain ⟨hescaped, hseparator⟩ := not_or.mp hfree
      rw [Bool.not_eq_true] at hescaped
      subst hescaped
      rw [splitSeparator_of_separator (not_not.mp hseparator)] at h
      cases h
    rw [splitSeparator_cons hfirst, Option.map_eq_none_iff] at h
    rw [List.cons_append, splitSeparator_cons hfirst, ih h, Option.map_map]
    rfl

theorem splitSeparator_of_isPrefix {escaped : Bool} {before : Text} (hbegins : before <+: text)
    (h : splitSeparator escaped text = none) : splitSeparator escaped before = none := by
  obtain ⟨rest, rfl⟩ := hbegins
  cases hbefore : splitSeparator escaped before with
  | none => rfl
  | some split =>
    exfalso
    obtain ⟨head, c, tail⟩ := split
    obtain ⟨rfl, hclosed, hafter, hseparator⟩ := splitSeparator_eq_some hbefore
    rw [List.append_assoc, splitSeparator_append hclosed, hafter, List.cons_append,
      splitSeparator_of_separator hseparator] at h
    cases h

end Escapes

-- One line
-- ---

section Lines

variable {key value line : Text} {source name : String}

structure IsKey (key : Text) : Prop where
  filled : key ≠ []
  newline : '\n' ∉ key
  trimmed : Trimmed whiteSpace key
  noComment : key.head? ≠ some '#' ∧ key.head? ≠ some '!'
  noSeparator : splitSeparator false key = none

structure IsValue (value : Text) : Prop where
  newline : '\n' ∉ value
  trimmed : Trimmed whiteSpace value

def entryLine (entry : Text × Text) : Text := entry.1 ++ '=' :: entry.2

theorem valueAfter_suffix (separator : Char) (rest : Text) : valueAfter separator rest <:+ rest := by
  unfold valueAfter
  split
  · have htrim := Lines.trimStart_isSuffix whiteSpace rest
    split
    · exact List.nil_suffix
    · next c value heq =>
      rw [heq] at htrim
      split
      · exact (List.suffix_cons c value).trans htrim
      · exact htrim
  · exact List.suffix_refl _

theorem head?_of_isPrefix {α : Type} {before text : List α} (h : before <+: text)
    (hne : before ≠ []) : text.head? = before.head? := by
  obtain ⟨rest, rfl⟩ := h
  exact List.head?_append_of_ne_nil _ hne

/-- **What is cut out of a line is a key and a value.** -/
theorem isKey_of_parse (hnewline : '\n' ∉ line)
    (h : parsePropertyEntry line source name = .ok (some (key, value))) :
    IsKey key ∧ IsValue value := by
  unfold parsePropertyEntry at h
  dsimp only at h
  split at h
  · cases h
  next hcomment =>
  simp only [not_or] at hcomment
  obtain ⟨hfilled, hhash, hbang⟩ := hcomment
  cases hsplit : splitSeparator false (trimmed line) with
  | none =>
    rw [hsplit] at h
    cases h
  | some split =>
  obtain ⟨before, separator, rest⟩ := split
  rw [hsplit, cutEntry] at h
  split at h
  · cases h
  next hkey =>
  injection h with h
  injection h with h
  obtain ⟨rfl, rfl⟩ := Prod.mk.inj h
  obtain ⟨hline, hclosed, -, -⟩ := splitSeparator_eq_some hsplit
  have hall : '\n' ∉ trimmed line := fun h => hnewline ((Lines.trim_isInfix whiteSpace line).subset h)
  have hbegins := Lines.trimEnd_isPrefix whiteSpace before
  have hhead : (trimmed line).head? = (Lines.trimEnd whiteSpace before).head? :=
    head?_of_isPrefix (hbegins.trans ⟨separator :: rest, hline.symm⟩) hkey
  constructor
  · refine ⟨hkey, fun h => hall ?_, ⟨fun c hc => ?_, Lines.last_trimEnd before⟩, ?_, ?_⟩
    · rw [hline]
      exact List.mem_append_left _ (hbegins.subset h)
    · exact (Lines.trimmed_trim line).first c (hhead ▸ hc)
    · exact ⟨hhead ▸ hhash, hhead ▸ hbang⟩
    · exact splitSeparator_of_isPrefix hbegins hclosed
  · refine ⟨fun h => hall ?_, Lines.trimmed_trim _⟩
    rw [hline]
    refine List.mem_append_right _ (List.mem_cons_of_mem _ ?_)
    exact (valueAfter_suffix separator rest).subset ((Lines.trim_isInfix whiteSpace _).subset h)

theorem trimmed_entryLine (hkey : IsKey key) (hvalue : IsValue value) :
    trimmed (entryLine (key, value)) = entryLine (key, value) := by
  refine Lines.trim_of_trimmed ⟨fun c hc => ?_, fun c hc => ?_⟩
  · rw [entryLine, List.head?_append_of_ne_nil _ hkey.filled] at hc
    exact hkey.trimmed.first c hc
  · rw [entryLine, List.getLast?_append, List.getLast?_cons] at hc
    cases hlast : value.getLast? with
    | none =>
      rw [hlast] at hc
      cases hc
      decide
    | some last =>
      rw [hlast] at hc
      cases hc
      exact hvalue.trimmed.last _ hlast

theorem parse_entryLine_eq_cut (hkey : IsKey key) (hvalue : IsValue value) :
    parsePropertyEntry (entryLine (key, value)) source name =
      cutEntry source name (entryLine (key, value)) (splitSeparator false (entryLine (key, value))) := by
  have hhead : (entryLine (key, value)).head? = key.head? :=
    List.head?_append_of_ne_nil _ hkey.filled
  have hnone : ¬ (entryLine (key, value) = [] ∨ (entryLine (key, value)).head? = some '#' ∨
      (entryLine (key, value)).head? = some '!') := by
    rw [hhead]
    rintro (hempty | hhash | hbang)
    · exact hkey.filled (List.append_eq_nil_iff.mp hempty).1
    · exact hkey.noComment.1 hhash
    · exact hkey.noComment.2 hbang
  rw [parsePropertyEntry]
  rw [trimmed_entryLine hkey hvalue, if_neg hnone]

/-- **A line that is written is read as its key and value**, when the key does not escape
what follows it. -/
theorem parse_entryLine (hkey : IsKey key) (hvalue : IsValue value) (h : ¬ EndsEscaping key) :
    parsePropertyEntry (entryLine (key, value)) source name = .ok (some (key, value)) := by
  have hafter : escapedAfter false key = false :=
    Bool.eq_false_iff.mpr fun hescaped => h ((escapedAfter_iff key).mp hescaped)
  have hsplit : splitSeparator false (entryLine (key, value)) = some (key, '=', value) := by
    rw [entryLine, splitSeparator_append hkey.noSeparator, hafter,
      splitSeparator_of_separator (Or.inl rfl), Option.map_some, List.append_nil]
  have htrim : Lines.trimEnd whiteSpace key = key := Lines.trimEnd_of_last hkey.trimmed.last
  have hvalueAfter : valueAfter '=' value = value := if_neg (by decide)
  rw [parse_entryLine_eq_cut hkey hvalue, hsplit, cutEntry]
  rw [htrim, if_neg hkey.filled, hvalueAfter, trimmed, Lines.trim_of_trimmed hvalue.trimmed]

theorem length_lt_of_parse_entryLine {entry : Option (Text × Text)} (hkey : IsKey key)
    (hvalue : IsValue value) (h : EndsEscaping key)
    (hparse : parsePropertyEntry (entryLine (key, value)) source name = .ok entry) :
    ∀ found ∈ entry, key.length < found.1.length := by
  have hafter : escapedAfter false key = true := (escapedAfter_iff key).mpr h
  rw [parse_entryLine_eq_cut hkey hvalue] at hparse
  cases hsplit : splitSeparator false (entryLine (key, value)) with
  | none =>
    rw [hsplit] at hparse
    cases hparse
  | some split =>
    obtain ⟨before, separator, rest⟩ := split
    rw [hsplit, cutEntry] at hparse
    split at hparse
    · cases hparse
    cases hparse
    rintro _ ⟨⟩
    show key.length < (Lines.trimEnd whiteSpace before).length
    rw [entryLine, splitSeparator_append hkey.noSeparator, hafter,
      splitSeparator_cons (Or.inl rfl)] at hsplit
    obtain ⟨⟨middle, tail⟩, hmiddle, heq⟩ := Option.map_eq_some_iff.mp hsplit
    obtain ⟨⟨after, tail'⟩, -, hcons⟩ := Option.map_eq_some_iff.mp hmiddle
    cases heq
    cases hcons
    have hsign : whiteSpace '=' = false := by decide
    have hkept := (Lines.prefix_trimEnd hsign key after).length_le
    rw [List.length_append] at hkept
    exact hkept

end Lines

-- Files
-- ---

section Files

variable {source name : String} {logical : Text} {physicals : List Text}
  {entries found : List (Text × Text)}

abbrev AreEntries (entries : List (Text × Text)) : Prop :=
  ∀ entry ∈ entries, IsKey entry.1 ∧ IsValue entry.2

theorem propertyEntriesFrom_cons (physical : Text) : propertyEntriesFrom source name logical
    (physical :: physicals) =
      let line := if logical = [] then physical else logical ++ Lines.trimStart whiteSpace physical
      if EndsEscaping line then propertyEntriesFrom source name line.dropLast physicals
      else do
        let entry ← parsePropertyEntry line source name
        let entries ← propertyEntriesFrom source name [] physicals
        return entry.toList ++ entries := rfl

theorem areEntries_of_propertyEntriesFrom (hlogical : '\n' ∉ logical)
    (hphysicals : ∀ physical ∈ physicals, '\n' ∉ physical)
    (h : propertyEntriesFrom source name logical physicals = .ok found) : AreEntries found := by
  induction physicals generalizing logical found with
  | nil =>
    unfold propertyEntriesFrom at h
    split at h
    · cases h
      exact fun entry hentry => absurd hentry List.not_mem_nil
    · cases h
  | cons physical physicals ih =>
    have hrest := fun p hp => hphysicals p (List.mem_cons_of_mem _ hp)
    have hphysical := hphysicals physical List.mem_cons_self
    rw [propertyEntriesFrom_cons] at h
    dsimp only at h
    have hline : '\n' ∉ if logical = [] then physical
        else logical ++ Lines.trimStart whiteSpace physical := by
      split
      · exact hphysical
      · rw [List.mem_append, not_or]
        exact ⟨hlogical, fun h => hphysical ((Lines.trimStart_isSuffix whiteSpace physical).subset h)⟩
    generalize (if logical = [] then physical
      else logical ++ Lines.trimStart whiteSpace physical) = line at h hline
    split at h
    · exact ih (fun h => hline (List.dropLast_subset line h)) hrest h
    · obtain ⟨entry, hentry, h⟩ := Fallible.bind_eq_ok.mp h
      obtain ⟨entries, hentries, h⟩ := Fallible.bind_eq_ok.mp h
      cases h
      intro read hread
      rcases List.mem_append.mp hread with hread | hread
      · rw [Option.mem_toList] at hread
        cases hread
        exact isKey_of_parse hline hentry
      · exact ih List.not_mem_nil hrest hentries read hread

/-- **What is read of a file are keys and values.** -/
theorem areEntries_of_propertyEntries {bytes : Bytes}
    (h : propertyEntries bytes source name = .ok found) : AreEntries found :=
  areEntries_of_propertyEntriesFrom List.not_mem_nil
    (fun _ hphysical => Lines.newline_notMem_of_mem_lines hphysical) h

theorem endsEscaping_entryLine (before : Text) {entry : Text × Text} :
    EndsEscaping (before ++ entryLine entry) ↔ EndsEscaping entry.2 := by
  unfold EndsEscaping
  rw [entryLine, ← List.append_assoc, trailingSlashes_append _ (by decide)]

theorem trimStart_entryLine {entry : Text × Text} (hkey : IsKey entry.1) :
    Lines.trimStart whiteSpace (entryLine entry) = entryLine entry := by
  refine Lines.trimStart_of_first fun c hc => ?_
  rw [entryLine, List.head?_append_of_ne_nil _ hkey.filled] at hc
  exact hkey.trimmed.first c hc

theorem propertyEntriesFrom_entryLine {entry : Text × Text} (hkey : IsKey entry.1) :
    propertyEntriesFrom source name logical (entryLine entry :: physicals) =
      if EndsEscaping entry.2 then
        propertyEntriesFrom source name (logical ++ entryLine entry).dropLast physicals
      else do
        let entry ← parsePropertyEntry (logical ++ entryLine entry) source name
        let entries ← propertyEntriesFrom source name [] physicals
        return entry.toList ++ entries := by
  have hline : (if logical = [] then entryLine entry
      else logical ++ Lines.trimStart whiteSpace (entryLine entry)) = logical ++ entryLine entry := by
    rw [trimStart_entryLine hkey]
    split
    · next hempty => rw [hempty, List.nil_append]
    · rfl
  rw [propertyEntriesFrom_cons, hline]
  exact if_congr (endsEscaping_entryLine logical) rfl rfl

/-- **A value that escapes what follows it costs an entry.** -/
theorem length_of_propertyEntriesFrom (hentries : AreEntries entries)
    (h : propertyEntriesFrom source name logical (entries.map entryLine) = .ok found) :
    found.length + entries.countP (fun entry => EndsEscaping entry.2) ≤ entries.length := by
  induction entries generalizing logical found with
  | nil =>
    rw [List.map_nil, propertyEntriesFrom] at h
    split at h
    · cases h
      exact Nat.le_refl _
    · cases h
  | cons entry entries ih =>
    have hrest : AreEntries entries := fun e he => hentries e (List.mem_cons_of_mem _ he)
    rw [List.map_cons, propertyEntriesFrom_entryLine (hentries entry List.mem_cons_self).1] at h
    rw [List.countP_cons, List.length_cons]
    by_cases hescaping : EndsEscaping entry.2
    · rw [if_pos hescaping] at h
      have hread := ih hrest h
      rw [if_pos (decide_eq_true hescaping)]
      omega
    · rw [if_neg hescaping] at h
      obtain ⟨parsed, -, h⟩ := Fallible.bind_eq_ok.mp h
      obtain ⟨more, hmore, h⟩ := Fallible.bind_eq_ok.mp h
      cases h
      have hread := ih hrest hmore
      have hparsed : parsed.toList.length ≤ 1 := by cases parsed <;> simp
      rw [if_neg (by simpa using hescaping), List.length_append]
      omega

theorem mem_of_propertyEntriesFrom (hentries : AreEntries entries)
    (hvalues : ∀ entry ∈ entries, ¬ EndsEscaping entry.2)
    (h : propertyEntriesFrom source name [] (entries.map entryLine) = .ok found)
    {read : Text × Text} (hread : read ∈ found) : ∃ entry ∈ entries,
      parsePropertyEntry (entryLine entry) source name = .ok (some read) := by
  induction entries generalizing found with
  | nil =>
    cases h
    cases hread
  | cons entry entries ih =>
    rw [List.map_cons, propertyEntriesFrom_entryLine (hentries entry List.mem_cons_self).1,
      if_neg (hvalues entry List.mem_cons_self), List.nil_append] at h
    obtain ⟨parsed, hparsed, h⟩ := Fallible.bind_eq_ok.mp h
    obtain ⟨more, hmore, h⟩ := Fallible.bind_eq_ok.mp h
    cases h
    rcases List.mem_append.mp hread with hread | hread
    · rw [Option.mem_toList] at hread
      cases hread
      exact ⟨entry, List.mem_cons_self, hparsed⟩
    · obtain ⟨source, hsource, hparse⟩ := ih (fun e he => hentries e (List.mem_cons_of_mem _ he))
        (fun e he => hvalues e (List.mem_cons_of_mem _ he)) hmore hread
      exact ⟨source, List.mem_cons_of_mem _ hsource, hparse⟩

/-- **Entries that escape nothing are read as they were written.** -/
theorem propertyEntriesFrom_entryLines (hentries : AreEntries entries)
    (heven : ∀ entry ∈ entries, ¬ EndsEscaping entry.1 ∧ ¬ EndsEscaping entry.2) :
    propertyEntriesFrom source name [] (entries.map entryLine) = .ok entries := by
  induction entries with
  | nil => rfl
  | cons entry entries ih =>
    obtain ⟨hkey, hvalue⟩ := hentries entry List.mem_cons_self
    obtain ⟨hkeyEven, hvalueEven⟩ := heven entry List.mem_cons_self
    rw [List.map_cons, propertyEntriesFrom_entryLine hkey, if_neg hvalueEven, List.nil_append,
      parse_entryLine hkey hvalue hkeyEven,
      ih (fun e he => hentries e (List.mem_cons_of_mem _ he))
        fun e he => heven e (List.mem_cons_of_mem _ he)]
    rfl

theorem parsePropertyEntry_source {line : Text} {entry : Option (Text × Text)} (other : String)
    (h : parsePropertyEntry line source name = .ok entry) :
    parsePropertyEntry line other name = .ok entry := by
  unfold parsePropertyEntry at h ⊢
  dsimp only at h ⊢
  split at h
  · next hcomment =>
    rw [if_pos hcomment]
    exact h
  · next hcomment =>
    rw [if_neg hcomment]
    cases hsplit : splitSeparator false (trimmed line) with
    | none =>
      rw [hsplit] at h
      cases h
    | some split =>
      rw [hsplit] at h
      unfold cutEntry at h ⊢
      dsimp only at h ⊢
      split at h
      · cases h
      · next hkey =>
        rw [if_neg hkey]
        exact h

theorem propertyEntriesFrom_source (other : String)
    (h : propertyEntriesFrom source name logical physicals = .ok found) :
    propertyEntriesFrom other name logical physicals = .ok found := by
  induction physicals generalizing logical found with
  | nil =>
    unfold propertyEntriesFrom at h ⊢
    split at h
    · next hlogical =>
      rw [if_pos hlogical]
      exact h
    · cases h
  | cons physical physicals ih =>
    rw [propertyEntriesFrom_cons] at h ⊢
    dsimp only at h ⊢
    generalize (if logical = [] then physical
      else logical ++ Lines.trimStart whiteSpace physical) = line at h ⊢
    split at h
    · next hescaping =>
      rw [if_pos hescaping]
      exact ih h
    · next hescaping =>
      rw [if_neg hescaping]
      obtain ⟨entry, hentry, h⟩ := Fallible.bind_eq_ok.mp h
      obtain ⟨entries, hentries, h⟩ := Fallible.bind_eq_ok.mp h
      cases h
      exact Fallible.bind_eq_ok.mpr ⟨entry, parsePropertyEntry_source other hentry,
        Fallible.bind_eq_ok.mpr ⟨entries, ih hentries, rfl⟩⟩

end Files

-- What properties say
-- ---

/-- What properties say of each key: nothing, or some elements. -/
abbrev Meaning := String → WithBot (Finset String)

/-- What the properties of a form say, and that reading and writing them keeps to it. -/
structure FormLaws {ν : Type} (form : PropertyForm ν) where
  elements : ν → Finset String
  elementsOf : Text → Finset String
  Valid : ν → Prop
  elements_injective : Function.Injective elements
  elementsOf_render : ∀ v, Valid v → elementsOf (form.render v).toList = elements v
  isValue_render : ∀ v, Valid v → IsValue (form.render v).toList
  /-- An entry is added to what is there. -/
  added : ∀ {source name properties entry properties'},
    form.add source name properties entry = .ok properties' →
      (∀ key, key ≠ String.ofList entry.1 → properties'[key]? = properties[key]?) ∧
      ∃ v, properties'[String.ofList entry.1]? = some v ∧
        elements v = ((properties[String.ofList entry.1]?.map elements).getD ∅) ∪ elementsOf entry.2 ∧
        (IsValue entry.2 → (∀ w, properties[String.ofList entry.1]? = some w → Valid w) → Valid v)
  /-- It can be added where the elements are together those of a value. -/
  adds : ∀ source name properties entry, (∃ v, ((properties[String.ofList entry.1]?.map
      elements).getD ∅) ∪ elementsOf entry.2 ⊆ elements v) →
    ∃ properties', form.add source name properties entry = .ok properties'

section Meanings

variable {ν : Type} {form : PropertyForm ν} (laws : FormLaws form)
  {properties properties' : BTreeMap ν} {entries : List (Text × Text)} {source name : String}

def FormLaws.meaning (properties : BTreeMap ν) : Meaning := fun key =>
  (properties[key]?).elim ⊥ fun v => (laws.elements v : WithBot (Finset String))

def FormLaws.entryMeaning (entry : Text × Text) : Meaning := fun key =>
  if key = String.ofList entry.1 then (laws.elementsOf entry.2 : WithBot (Finset String)) else ⊥

def together (meanings : List Meaning) : Meaning := meanings.foldr (· ⊔ ·) ⊥

/-- The values are such as are read from files, and so are the keys. -/
def FormLaws.WellFormed (properties : BTreeMap ν) : Prop :=
  ∀ (key : String) v, properties[key]? = some v → IsKey key.toList ∧ laws.Valid v

theorem le_together {meanings : List Meaning} {meaning : Meaning} (h : meaning ∈ meanings) :
    meaning ≤ together meanings := by
  induction meanings with
  | nil => cases h
  | cons first rest ih =>
    rcases List.mem_cons.mp h with rfl | h
    · exact le_sup_left
    · exact (ih h).trans le_sup_right

theorem together_le {meanings : List Meaning} {bound : Meaning}
    (h : ∀ meaning ∈ meanings, meaning ≤ bound) : together meanings ≤ bound := by
  induction meanings with
  | nil => exact bot_le
  | cons first rest ih =>
    exact sup_le (h first List.mem_cons_self) (ih fun m hm => h m (List.mem_cons_of_mem _ hm))

theorem together_append (left right : List Meaning) :
    together (left ++ right) = together left ⊔ together right := by
  induction left with
  | nil => exact (bot_sup_eq _).symm
  | cons first rest ih =>
    show first ⊔ together (rest ++ right) = (first ⊔ together rest) ⊔ together right
    rw [ih, sup_assoc]

theorem meaning_empty : laws.meaning ∅ = ⊥ := by
  funext key
  rw [FormLaws.meaning, Std.ExtTreeMap.getElem?_empty]
  rfl

theorem meaning_injective : Function.Injective laws.meaning := by
  intro left right h
  refine Std.ExtTreeMap.ext_getElem? fun key => ?_
  have hkey := congrFun h key
  unfold FormLaws.meaning at hkey
  cases hleft : left[key]? with
  | none =>
    cases hright : right[key]? with
    | none => rfl
    | some w =>
      rw [hleft, hright] at hkey
      exact absurd hkey.symm WithBot.coe_ne_bot
  | some v =>
    cases hright : right[key]? with
    | none =>
      rw [hleft, hright] at hkey
      exact absurd hkey WithBot.coe_ne_bot
    | some w =>
      rw [hleft, hright] at hkey
      rw [laws.elements_injective (WithBot.coe_inj.mp hkey)]

/-- **An entry that is added is said besides what was said.** -/
theorem meaning_add {entry : Text × Text}
    (h : form.add source name properties entry = .ok properties') :
    laws.meaning properties' = laws.meaning properties ⊔ laws.entryMeaning entry := by
  obtain ⟨hother, v, hv, helements, -⟩ := laws.added h
  funext key
  rw [Pi.sup_apply, FormLaws.meaning, FormLaws.meaning, FormLaws.entryMeaning]
  by_cases hkey : key = String.ofList entry.1
  · subst hkey
    rw [if_pos rfl, hv, Option.elim_some, helements]
    cases properties[String.ofList entry.1]? with
    | none => rw [Option.map_none, Option.getD_none, Finset.empty_union, Option.elim_none, bot_sup_eq]
    | some w => rfl
  · rw [hother key hkey, if_neg hkey, sup_bot_eq]

theorem wellFormed_add {entry : Text × Text} (hentry : IsKey entry.1 ∧ IsValue entry.2)
    (hproperties : laws.WellFormed properties)
    (h : form.add source name properties entry = .ok properties') : laws.WellFormed properties' := by
  obtain ⟨hother, v, hv, -, hvalid⟩ := laws.added h
  intro key w hw
  by_cases hkey : key = String.ofList entry.1
  · subst hkey
    rw [hv] at hw
    cases hw
    rw [String.toList_ofList]
    exact ⟨hentry.1, hvalid hentry.2 fun u hu => (hproperties _ u hu).2⟩
  · rw [hother key hkey] at hw
    exact hproperties key w hw

theorem exists_add {entry : Text × Text} {whole : BTreeMap ν}
    (h : laws.meaning properties ⊔ laws.entryMeaning entry ≤ laws.meaning whole)
    (source name : String) : ∃ properties', form.add source name properties entry = .ok properties' := by
  refine laws.adds source name properties entry ?_
  have hkey := h (String.ofList entry.1)
  rw [Pi.sup_apply, FormLaws.meaning, FormLaws.meaning, FormLaws.entryMeaning, if_pos rfl] at hkey
  cases hwhole : whole[String.ofList entry.1]? with
  | none =>
    rw [hwhole, Option.elim_none, le_bot_iff, sup_eq_bot_iff] at hkey
    exact absurd hkey.2 WithBot.coe_ne_bot
  | some v =>
    rw [hwhole] at hkey
    refine ⟨v, ?_⟩
    cases hproperties : properties[String.ofList entry.1]? with
    | none =>
      rw [hproperties, Option.elim_none, bot_sup_eq] at hkey
      rw [Option.map_none, Option.getD_none, Finset.empty_union]
      exact WithBot.coe_le_coe.mp hkey
    | some w =>
      rw [hproperties] at hkey
      exact WithBot.coe_le_coe.mp hkey

/-- **A file is said besides what was said before it.** -/
theorem meaning_entries (h : entries.foldlM (form.add source name) properties = .ok properties') :
    laws.meaning properties' =
      laws.meaning properties ⊔ together (entries.map laws.entryMeaning) := by
  induction entries generalizing properties with
  | nil =>
    cases h
    exact (sup_bot_eq _).symm
  | cons entry entries ih =>
    obtain ⟨next, hnext, h⟩ := Fallible.bind_eq_ok.mp h
    rw [ih h, meaning_add laws hnext, sup_assoc]
    rfl

theorem wellFormed_entries (hentries : AreEntries entries) (hproperties : laws.WellFormed properties)
    (h : entries.foldlM (form.add source name) properties = .ok properties') :
    laws.WellFormed properties' := by
  induction entries generalizing properties with
  | nil =>
    cases h
    exact hproperties
  | cons entry entries ih =>
    obtain ⟨next, hnext, h⟩ := Fallible.bind_eq_ok.mp h
    exact ih (fun e he => hentries e (List.mem_cons_of_mem _ he))
      (wellFormed_add laws (hentries entry List.mem_cons_self) hproperties hnext) h

theorem exists_entries {whole : BTreeMap ν} (source name : String)
    (h : laws.meaning properties ⊔ together (entries.map laws.entryMeaning) ≤ laws.meaning whole) :
    ∃ properties', entries.foldlM (form.add source name) properties = .ok properties' := by
  induction entries generalizing properties with
  | nil => exact ⟨properties, rfl⟩
  | cons entry entries ih =>
    have hsplit : laws.meaning properties ⊔ together ((entry :: entries).map laws.entryMeaning) =
        laws.meaning properties ⊔ laws.entryMeaning entry ⊔
          together (entries.map laws.entryMeaning) := (sup_assoc _ _ _).symm
    rw [hsplit] at h
    obtain ⟨next, hnext⟩ := exists_add laws (le_sup_left.trans h) source name
    rw [← meaning_add laws hnext] at h
    obtain ⟨properties', hrest⟩ := ih h
    exact ⟨properties', Fallible.bind_eq_ok.mpr ⟨next, hnext, hrest⟩⟩

/-- **What is read of a file does not depend on where it comes from.** -/
theorem parse_unique (laws : FormLaws form) {bytes : Bytes} {source' : String} {read read' : BTreeMap ν}
    (h : form.parse properties bytes source name = .ok read)
    (h' : form.parse properties bytes source' name = .ok read') : read = read' := by
  obtain ⟨entries, hentries, hfold⟩ := Fallible.bind_eq_ok.mp h
  obtain ⟨entries', hentries', hfold'⟩ := Fallible.bind_eq_ok.mp h'
  have hsame : entries' = entries := by
    have hother := propertyEntriesFrom_source source' hentries
    exact Except.ok.inj (hentries'.symm.trans hother)
  rw [hsame] at hfold'
  exact meaning_injective laws ((meaning_entries laws hfold).trans (meaning_entries laws hfold').symm)

/-- The entries that are written for properties. -/
def PropertyForm.entriesOf (form : PropertyForm ν) (properties : BTreeMap ν) : List (Text × Text) :=
  properties.toList.map fun entry => (entry.1.toList, (form.render entry.2).toList)

theorem mem_entriesOf {entry : Text × Text} : entry ∈ form.entriesOf properties ↔
    ∃ (key : String) (v : ν), properties[key]? = some v ∧
      entry = (key.toList, (form.render v).toList) := by
  rw [PropertyForm.entriesOf, List.mem_map]
  constructor
  · rintro ⟨⟨key, v⟩, hmem, rfl⟩
    exact ⟨key, v, Std.ExtTreeMap.mem_toList_iff_getElem?_eq_some.mp hmem, rfl⟩
  · rintro ⟨key, v, hv, rfl⟩
    exact ⟨(key, v), Std.ExtTreeMap.mem_toList_iff_getElem?_eq_some.mpr hv, rfl⟩

theorem areEntries_entriesOf (h : laws.WellFormed properties) :
    AreEntries (form.entriesOf properties) := by
  intro entry hentry
  obtain ⟨key, v, hv, rfl⟩ := mem_entriesOf.mp hentry
  exact ⟨(h key v hv).1, laws.isValue_render v (h key v hv).2⟩

theorem together_entriesOf (h : laws.WellFormed properties) :
    together ((form.entriesOf properties).map laws.entryMeaning) = laws.meaning properties := by
  refine le_antisymm (together_le fun meaning hmeaning => ?_) fun key => ?_
  · obtain ⟨entry, hentry, rfl⟩ := List.mem_map.mp hmeaning
    obtain ⟨key, v, hv, rfl⟩ := mem_entriesOf.mp hentry
    intro other
    rw [FormLaws.entryMeaning, FormLaws.meaning, String.ofList_toList]
    by_cases hother : other = key
    · subst hother
      rw [if_pos rfl, hv, Option.elim_some, laws.elementsOf_render v (h other v hv).2]
    · rw [if_neg hother]
      exact bot_le
  · cases hv : properties[key]? with
    | none =>
      rw [FormLaws.meaning, hv]
      exact bot_le
    | some v =>
      have hmem : (key.toList, (form.render v).toList) ∈ form.entriesOf properties :=
        mem_entriesOf.mpr ⟨key, v, hv, rfl⟩
      have hentry := List.mem_map_of_mem (f := laws.entryMeaning) hmem
      refine le_trans (le_of_eq ?_) (le_together hentry key)
      rw [FormLaws.meaning, hv, FormLaws.entryMeaning, if_pos (String.ofList_toList).symm,
        Option.elim_some, laws.elementsOf_render v (h key v hv).2]

end Meanings

-- Written and read again
-- ---

section RoundTrip

variable {ν : Type} {form : PropertyForm ν} {laws : FormLaws form}
  {properties properties' : BTreeMap ν} {source name : String}

/-- No key and no value of the properties escapes what follows it. -/
def PropertyForm.Escapeless (form : PropertyForm ν) (properties : BTreeMap ν) : Prop :=
  ∀ (key : String) v, properties[key]? = some v →
    ¬ EndsEscaping key.toList ∧ ¬ EndsEscaping (form.render v).toList

theorem isLine_entryLine {entry : Text × Text} (h : IsKey entry.1 ∧ IsValue entry.2) :
    IsLine (entryLine entry) := by
  have htrimmed : Trimmed whiteSpace (entryLine entry) := by
    rw [← trimmed_entryLine h.1 h.2]
    exact Lines.trimmed_trim _
  refine htrimmed.isLine (fun hnewline => ?_) rfl
  rcases List.mem_append.mp hnewline with hkey | hrest
  · exact h.1.newline hkey
  · rcases List.mem_cons.mp hrest with hsign | hvalue
    · cases hsign
    · exact h.2.newline hvalue

theorem lines_emit (h : laws.WellFormed properties) :
    Lines.lines (OsText.fromUtf8Lossy (utf8 (form.emit properties))) =
      "# Merged by JMAN".toList :: (form.entriesOf properties).map entryLine := by
  have hbody : (String.join (properties.toList.map fun entry =>
      entry.1 ++ "=" ++ form.render entry.2 ++ "\n")).toList =
      Lines.unlines ((form.entriesOf properties).map entryLine) := by
    rw [String.toList_join, PropertyForm.entriesOf, Lines.unlines, List.map_map, List.flatMap_map,
      List.flatMap_map]
    refine List.flatMap_congr fun entry _ => ?_
    simp [entryLine]
  have hcomment : IsLine "# Merged by JMAN".toList := ⟨by decide, by decide⟩
  have hfirst : "# Merged by JMAN\n".toList = "# Merged by JMAN".toList ++ ['\n'] := by decide
  have hentries : ∀ line ∈ (form.entriesOf properties).map entryLine, IsLine line := by
    intro line hline
    obtain ⟨entry, hentry, rfl⟩ := List.mem_map.mp hline
    exact isLine_entryLine (areEntries_entriesOf laws h entry hentry)
  have hlist : (form.emit properties).toList = ("# Merged by JMAN".toList ++ ['\n']) ++
      Lines.unlines ((form.entriesOf properties).map entryLine) :=
    String.toList_append.trans (congrArg₂ (· ++ ·) hfirst hbody)
  rw [utf8, OsText.fromUtf8Lossy_toUTF8, hlist]
  generalize "# Merged by JMAN".toList = comment at hcomment
  rw [List.append_assoc, List.singleton_append, Lines.lines_cons hcomment,
    Lines.lines_unlines hentries]

theorem propertyEntriesFrom_comment {comment : Text}
    (hparse : parsePropertyEntry comment source name = .ok none) (heven : ¬ EndsEscaping comment)
    (physicals : List Text) : propertyEntriesFrom source name [] (comment :: physicals) =
      propertyEntriesFrom source name [] physicals := by
  rw [propertyEntriesFrom_cons, if_pos rfl]
  dsimp only
  rw [if_neg heven, hparse]
  cases propertyEntriesFrom source name [] physicals <;> rfl

theorem propertyEntries_emit (h : laws.WellFormed properties) :
    propertyEntries (utf8 (form.emit properties)) source name =
      propertyEntriesFrom source name [] ((form.entriesOf properties).map entryLine) := by
  have hcomment : parsePropertyEntry "# Merged by JMAN".toList source name = .ok none := by
    rfl
  have heven : ¬ EndsEscaping "# Merged by JMAN".toList := by decide
  rw [propertyEntries, lines_emit h]
  exact propertyEntriesFrom_comment hcomment heven _

/-- **Properties without escapes at ends are read as they were written.** -/
theorem parse_emit (h : laws.WellFormed properties) (heven : form.Escapeless properties) :
    form.parse ∅ (utf8 (form.emit properties)) source name = .ok properties := by
  have hread : propertyEntries (utf8 (form.emit properties)) source name =
      .ok (form.entriesOf properties) := by
    rw [propertyEntries_emit h]
    refine propertyEntriesFrom_entryLines (areEntries_entriesOf laws h) fun entry hentry => ?_
    obtain ⟨key, v, hv, rfl⟩ := mem_entriesOf.mp hentry
    exact heven key v hv
  have hmeaning : laws.meaning ∅ ⊔ together ((form.entriesOf properties).map laws.entryMeaning) =
      laws.meaning properties := by
    rw [meaning_empty, bot_sup_eq, together_entriesOf laws h]
  obtain ⟨read, hfold⟩ := exists_entries laws source name hmeaning.le
  have hsame := meaning_entries laws hfold
  rw [hmeaning] at hsame
  rw [meaning_injective laws hsame] at hfold
  rw [PropertyForm.parse, hread]
  exact hfold

theorem mem_of_entries (laws : FormLaws form) {entries : List (Text × Text)}
    (h : entries.foldlM (form.add source name) properties = .ok properties') {key : String}
    (hkey : properties'[key]? ≠ none) :
    properties[key]? ≠ none ∨ ∃ entry ∈ entries, String.ofList entry.1 = key := by
  induction entries generalizing properties with
  | nil =>
    cases h
    exact Or.inl hkey
  | cons entry entries ih =>
    obtain ⟨next, hnext, h⟩ := Fallible.bind_eq_ok.mp h
    rcases ih h with hnone | ⟨found, hfound, hsame⟩
    · by_cases hentry : key = String.ofList entry.1
      · exact Or.inr ⟨entry, List.mem_cons_self, hentry.symm⟩
      · exact Or.inl ((laws.added hnext).1 key hentry ▸ hnone)
    · exact Or.inr ⟨found, List.mem_cons_of_mem _ hfound, hsame⟩

theorem length_entriesOf : (form.entriesOf properties).length = properties.keys.length := by
  rw [PropertyForm.entriesOf, List.length_map, Std.ExtTreeMap.length_toList,
    Std.ExtTreeMap.length_keys]

/-- **Properties with an escape at an end are read as others.** A value that escapes what
follows it costs an entry, and so some key; the shortest key that does is not read. -/
theorem escapeless_of_parse_emit (h : laws.WellFormed properties)
    (hread : form.parse ∅ (utf8 (form.emit properties)) source name = .ok properties) :
    form.Escapeless properties := by
  obtain ⟨found, hfound, hfold⟩ := Fallible.bind_eq_ok.mp hread
  rw [propertyEntries_emit h] at hfound
  have hentries := areEntries_entriesOf laws h
  have hkeys : ∀ (key : String) v, properties[key]? = some v →
      ∃ entry ∈ found, String.ofList entry.1 = key := by
    intro key v hv
    have hsome : properties[key]? ≠ none := by
      rw [hv]
      exact Option.some_ne_none v
    exact (mem_of_entries laws hfold hsome).resolve_left fun hnone =>
      hnone Std.ExtTreeMap.getElem?_empty
  have hlength : properties.keys.length ≤ found.length := by
    have hsub : properties.keys ⊆ found.map fun entry => String.ofList entry.1 := by
      intro key hkey
      obtain ⟨v, hv⟩ := Option.isSome_iff_exists.mp
        (Std.ExtTreeMap.isSome_getElem?_iff_mem.mpr (Std.ExtTreeMap.mem_keys.mp hkey))
      exact List.mem_map.mpr (hkeys key v hv)
    have hle := (List.subperm_of_subset Std.ExtTreeMap.nodup_keys hsub).length_le
    rwa [List.length_map] at hle
  have hvalues : ∀ entry ∈ form.entriesOf properties, ¬ EndsEscaping entry.2 := by
    have hcount := length_of_propertyEntriesFrom hentries hfound
    rw [length_entriesOf] at hcount
    have hzero : (form.entriesOf properties).countP (fun entry => EndsEscaping entry.2) = 0 := by
      omega
    intro entry hentry hescaping
    exact List.countP_eq_zero.mp hzero entry hentry (decide_eq_true hescaping)
  have hshortest : ∀ n (key : String) v, key.toList.length = n → properties[key]? = some v →
      ¬ EndsEscaping key.toList := by
    intro n
    induction n using Nat.strong_induction_on with
    | _ n ih =>
      intro key v hn hv hescaping
      obtain ⟨entry, hentry, rfl⟩ := hkeys key v hv
      obtain ⟨written, hwritten, hparse⟩ :=
        mem_of_propertyEntriesFrom hentries hvalues hfound hentry
      obtain ⟨hkey, hvalue⟩ := hentries written hwritten
      obtain ⟨other, w, hw, rfl⟩ := mem_entriesOf.mp hwritten
      rw [String.toList_ofList] at hn hescaping
      by_cases hother : EndsEscaping other.toList
      · have hlonger := length_lt_of_parse_entryLine hkey hvalue hother hparse entry rfl
        exact ih _ (hn ▸ hlonger) other w rfl hw hother
      · rw [parse_entryLine hkey hvalue hother] at hparse
        cases hparse
        exact hother hescaping
  intro key v hv
  exact ⟨hshortest _ key v rfl hv, hvalues _ (mem_entriesOf.mpr ⟨key, v, hv, rfl⟩)⟩

end RoundTrip

-- Merges of many files
-- ---

structure PropertyFile {ν : Type} (form : PropertyForm ν) (name : String) where
  bytes : Bytes
  source : String
  properties : BTreeMap ν
  accepted : form.parse ∅ bytes source name = .ok properties

section Merges

variable {ν : Type} {form : PropertyForm ν} {name : String}

def PropertyForm.mergeAll (archive : FatArchive) (files : List (PropertyFile form name)) :
    Except BuildError FatArchive :=
  files.foldlM (fun archive file => form.merge archive name file.bytes file.source) archive

/-- Properties say what the files say together. -/
def FormLaws.IsUnion (laws : FormLaws form) (files : List (PropertyFile form name))
    (whole : BTreeMap ν) : Prop :=
  laws.meaning whole = together (files.map fun file => laws.meaning file.properties)

def FormLaws.MergesToUnion (laws : FormLaws form) (archive : FatArchive)
    (files : List (PropertyFile form name)) : Prop :=
  ∃ merged entry read, PropertyForm.mergeAll archive files = .ok merged ∧
    merged.entries[name]? = some entry ∧ form.parse ∅ entry.bytes entry.source name = .ok read ∧
    laws.IsUnion files read

variable {laws : FormLaws form} {archive merged : FatArchive} {file : PropertyFile form name}
  {files before : List (PropertyFile form name)} {properties map whole : BTreeMap ν}

theorem mergeAll_concat : PropertyForm.mergeAll archive (before ++ [file]) = .ok merged ↔
    ∃ next, PropertyForm.mergeAll archive before = .ok next ∧
      form.merge next name file.bytes file.source = .ok merged := by
  rw [PropertyForm.mergeAll, List.foldlM_append]
  refine Fallible.bind_eq_ok.trans (exists_congr fun next => and_congr_right fun _ => ?_)
  show (form.merge next name file.bytes file.source >>= pure) = _ ↔ _
  rw [bind_pure]

theorem wellFormed_empty (laws : FormLaws form) : laws.WellFormed ∅ := by
  intro key v hv
  rw [Std.ExtTreeMap.getElem?_empty] at hv
  cases hv

theorem wellFormed_of_parse {bytes : Bytes} {source : String} (hproperties : laws.WellFormed properties)
    (h : form.parse properties bytes source name = .ok map) : laws.WellFormed map := by
  obtain ⟨entries, hentries, hfold⟩ := Fallible.bind_eq_ok.mp h
  exact wellFormed_entries laws (areEntries_of_propertyEntries hentries) hproperties hfold

theorem parse_after {bytes : Bytes} {source : String}
    (hmap : form.parse ∅ bytes source name = .ok map)
    (hwhole : laws.meaning properties ⊔ laws.meaning map ≤ laws.meaning whole) :
    ∃ read, form.parse properties bytes source name = .ok read ∧
      laws.meaning read = laws.meaning properties ⊔ laws.meaning map := by
  obtain ⟨entries, hentries, hfold⟩ := Fallible.bind_eq_ok.mp hmap
  have hmeans : laws.meaning map = together (entries.map laws.entryMeaning) := by
    rw [meaning_entries laws hfold, meaning_empty, bot_sup_eq]
  rw [hmeans] at hwhole ⊢
  obtain ⟨read, hread⟩ := exists_entries laws source name hwhole
  exact ⟨read, Fallible.bind_eq_ok.mpr ⟨entries, hentries, hread⟩, meaning_entries laws hread⟩

theorem exists_merge {source : String} {bytes : Bytes}
    (hexisting : form.existing archive name = .ok properties)
    (hproperties : laws.WellFormed properties) (hmap : form.parse ∅ bytes source name = .ok map)
    (hwhole : laws.meaning properties ⊔ laws.meaning map ≤ laws.meaning whole) :
    ∃ read merged, form.merge archive name bytes source = .ok merged ∧
      merged.entries[name]? = some ⟨utf8 (form.emit read), form.label⟩ ∧ laws.WellFormed read ∧
      laws.meaning read = laws.meaning properties ⊔ laws.meaning map := by
  obtain ⟨read, hread, hmeaning⟩ := parse_after hmap hwhole
  refine ⟨read, archive.insert name ⟨utf8 (form.emit read), form.label⟩, ?_,
    getElem?_insert_self _, wellFormed_of_parse hproperties hread, hmeaning⟩
  exact Fallible.bind_eq_ok.mpr ⟨properties, hexisting,
    Fallible.bind_eq_ok.mpr ⟨read, hread, rfl⟩⟩

theorem together_concat (before : List (PropertyFile form name)) (file : PropertyFile form name) :
    together ((before ++ [file]).map fun file => laws.meaning file.properties) =
      together (before.map fun file => laws.meaning file.properties) ⊔
        laws.meaning file.properties := by
  rw [List.map_append, together_append]
  exact congrArg _ (sup_bot_eq _)

/-- **Merges of files**, where what is read back on the way escapes nothing at its ends. -/
theorem exists_mergeAll (harchive : archive.entries[name]? = none) (hne : files ≠ [])
    (hwhole : together (files.map fun file => laws.meaning file.properties) ≤ laws.meaning whole)
    (hclean : ∀ n, 0 < n → n < files.length → ∀ union, laws.IsUnion (files.take n) union →
      form.Escapeless union) :
    ∃ union merged, PropertyForm.mergeAll archive files = .ok merged ∧
      merged.entries[name]? = some ⟨utf8 (form.emit union), form.label⟩ ∧
      laws.WellFormed union ∧ laws.IsUnion files union := by
  induction files using List.reverseRecOn with
  | nil => exact absurd rfl hne
  | append_singleton before file ih =>
    rw [together_concat] at hwhole
    rcases eq_or_ne before [] with rfl | hbefore
    · have hexisting : form.existing archive name = .ok ∅ := by
        rw [PropertyForm.existing, harchive]
      have hbound : laws.meaning ∅ ⊔ laws.meaning file.properties ≤ laws.meaning whole := by
        rw [meaning_empty, bot_sup_eq]
        exact le_sup_right.trans hwhole
      obtain ⟨union, merged, hmerge, hentry, hunion, hmeaning⟩ :=
        exists_merge hexisting (wellFormed_empty laws) file.accepted hbound
      refine ⟨union, merged, mergeAll_concat.mpr ⟨archive, rfl, hmerge⟩, hentry, hunion, ?_⟩
      rw [FormLaws.IsUnion, hmeaning, meaning_empty]
      exact sup_comm _ _
    · have hlength : (before ++ [file]).length = before.length + 1 := List.length_append
      obtain ⟨union, next, hnext, hentry, hunion, hmeaning⟩ := ih hbefore (le_sup_left.trans hwhole)
        fun n hpos hlt other hother => by
          refine hclean n hpos (by omega) other ?_
          rwa [List.take_append_of_le_length hlt.le]
      have heven : form.Escapeless union := by
        refine hclean before.length (List.length_pos_iff.mpr hbefore) (by omega) union ?_
        rwa [List.take_left]
      have hexisting : form.existing next name = .ok union := by
        rw [PropertyForm.existing, hentry]
        exact parse_emit hunion heven
      have hmeaning' : laws.meaning union =
        together (before.map fun file => laws.meaning file.properties) := hmeaning
      rw [← hmeaning'] at hwhole
      obtain ⟨read, merged, hmerge, hentry', hread, hreads⟩ :=
        exists_merge hexisting hunion file.accepted hwhole
      refine ⟨read, merged, mergeAll_concat.mpr ⟨next, hnext, hmerge⟩, hentry', hread, ?_⟩
      rw [FormLaws.IsUnion, together_concat, ← hmeaning', hreads]

/-- **Merged files are read as their union, after each merge, exactly if the unions on the
way escape nothing at their ends.** -/
theorem mergesToUnion_iff (harchive : archive.entries[name]? = none)
    (hwhole : laws.IsUnion files whole) :
    (∀ n, 0 < n → n ≤ files.length → laws.MergesToUnion archive (files.take n)) ↔
      ∀ n, 0 < n → n ≤ files.length → ∀ union, laws.IsUnion (files.take n) union →
        form.Escapeless union := by
  have hbegins : ∀ n, together ((files.take n).map fun file => laws.meaning file.properties) ≤
      laws.meaning whole := by
    intro n
    have hsplit := List.take_append_drop n files
    rw [FormLaws.IsUnion] at hwhole
    rw [hwhole]
    conv_rhs => rw [← hsplit, List.map_append, together_append]
    exact le_sup_left
  have hrun : ∀ n, 0 < n → n ≤ files.length →
      (∀ m, 0 < m → m < n → ∀ union, laws.IsUnion (files.take m) union → form.Escapeless union) →
      ∃ union merged, PropertyForm.mergeAll archive (files.take n) = .ok merged ∧
        merged.entries[name]? = some ⟨utf8 (form.emit union), form.label⟩ ∧
        laws.WellFormed union ∧ laws.IsUnion (files.take n) union := by
    intro n hpos hle hclean
    have hlength : (files.take n).length = n := List.length_take_of_le hle
    refine exists_mergeAll harchive (fun hnil => ?_) (hbegins n) fun m hm hlt union hunion => ?_
    · rw [hnil, List.length_nil] at hlength
      omega
    · rw [hlength] at hlt
      rw [List.take_take, min_eq_left hlt.le] at hunion
      exact hclean m hm hlt union hunion
  constructor
  · intro hmerges n
    induction n using Nat.strong_induction_on with
    | _ n ih =>
      intro hpos hle union hunion
      obtain ⟨written, merged, hmerged, hentry, hwell, hmeaning⟩ :=
        hrun n hpos hle fun m hm hlt => ih m hlt hm (by omega)
      obtain ⟨merged', entry, read, hmerged', hentry', hread, hreads⟩ := hmerges n hpos hle
      rw [hmerged] at hmerged'
      cases hmerged'
      rw [hentry] at hentry'
      cases hentry'
      have hsame : read = written := meaning_injective laws (hreads.trans hmeaning.symm)
      have hsame' : union = written := meaning_injective laws (hunion.trans hmeaning.symm)
      rw [hsame]  at hread
      rw [hsame']
      exact escapeless_of_parse_emit hwell hread
  · intro hclean n hpos hle
    obtain ⟨union, merged, hmerged, hentry, hwell, hmeaning⟩ :=
      hrun n hpos hle fun m hm hlt => hclean m hm (by omega)
    exact ⟨merged, _, union, hmerged, hentry, parse_emit hwell (hclean n hpos hle union hmeaning),
      hmeaning⟩

end Merges

-- The two forms
-- ---

section Forms

variable {value : Text} {source name : String}

theorem addProperty_eq_ok {properties properties' : BTreeMap String} {entry : Text × Text}
    (h : addProperty source name properties entry = .ok properties') :
    (properties[String.ofList entry.1]? = some (String.ofList entry.2) ∧ properties' = properties) ∨
    properties[String.ofList entry.1]? = none ∧
      properties' = properties.insert (String.ofList entry.1) (String.ofList entry.2) := by
  unfold addProperty at h
  dsimp only at h
  cases hexisting : properties[String.ofList entry.1]? with
  | none =>
    rw [hexisting] at h
    cases h
    exact Or.inr ⟨rfl, rfl⟩
  | some existing =>
    rw [hexisting] at h
    dsimp only at h
    split at h
    · cases h
    · next hsame =>
      cases h
      exact Or.inl ⟨congrArg some (not_not.mp hsame), rfl⟩

def plainLaws : FormLaws plainProperties where
  elements value := {value}
  elementsOf value := {String.ofList value}
  Valid value := IsValue value.toList
  elements_injective := Finset.singleton_injective
  elementsOf_render v _ := by
    show {String.ofList v.toList} = {v}
    rw [String.ofList_toList]
  isValue_render v h := h
  added := by
    intro source name properties entry properties' h
    rcases addProperty_eq_ok h with ⟨hexisting, rfl⟩ | ⟨hnone, rfl⟩
    · refine ⟨fun _ _ => rfl, String.ofList entry.2, hexisting, ?_, fun hvalue _ => ?_⟩
      · rw [hexisting]
        exact (Finset.union_idempotent _).symm
      · rw [String.toList_ofList]
        exact hvalue
    · refine ⟨fun key hkey => ?_, String.ofList entry.2, Std.ExtTreeMap.getElem?_insert_self, ?_,
        fun hvalue _ => ?_⟩
      · rw [Std.ExtTreeMap.getElem?_insert, if_neg fun heq => hkey (compare_eq_iff_eq.mp heq).symm]
      · rw [hnone]
        exact (Finset.empty_union _).symm
      · rw [String.toList_ofList]
        exact hvalue
  adds := by
    rintro source name properties entry ⟨v, hsub⟩
    show ∃ properties', addProperty source name properties entry = .ok properties'
    unfold addProperty
    dsimp only
    cases hexisting : properties[String.ofList entry.1]? with
    | none => exact ⟨_, rfl⟩
    | some existing =>
      rw [hexisting] at hsub
      have hleft : existing = v :=
        Finset.mem_singleton.mp (hsub (Finset.mem_union_left _ (Finset.mem_singleton_self _)))
      have hright : String.ofList entry.2 = v :=
        Finset.mem_singleton.mp (hsub (Finset.mem_union_right _ (Finset.mem_singleton_self _)))
      refine ⟨properties, if_neg (not_not.mpr ?_)⟩
      rw [hleft, hright]

/-- An element as it is cut out of a list of values. -/
structure IsElement (element : Text) : Prop where
  isValue : IsValue element
  filled : element ≠ []
  noComma : ',' ∉ element

theorem isElement_of_mem {element : Text} (hvalue : IsValue value)
    (h : element ∈ listElements value) : IsElement element := by
  obtain ⟨hmem, hfilled⟩ := List.mem_filter.mp h
  obtain ⟨piece, hpiece, rfl⟩ := List.mem_map.mp hmem
  obtain ⟨hcomma, hsub⟩ := Lines.piece_of_splitOn hpiece
  have htrim := (Lines.trim_isInfix whiteSpace piece).subset
  exact ⟨⟨fun h => hvalue.newline (hsub (htrim h)), Lines.trimmed_trim piece⟩,
    of_decide_eq_true hfilled, fun h => hcomma (htrim h)⟩

theorem isValue_intercalate {elements : List Text} (h : ∀ element ∈ elements, IsElement element) :
    IsValue ([','].intercalate elements) ∧ (elements ≠ [] → [','].intercalate elements ≠ []) := by
  induction elements with
  | nil =>
    have hnone : ∀ c ∈ ([] : Text).head?, whiteSpace c = false := fun c hc => by cases hc
    exact ⟨⟨List.not_mem_nil, ⟨hnone, hnone⟩⟩, fun h => absurd rfl h⟩
  | cons first rest ih =>
    have hfirst := h first List.mem_cons_self
    cases rest with
    | nil =>
      rw [List.intercalate_singleton]
      exact ⟨hfirst.isValue, fun _ => hfirst.filled⟩
    | cons next rest =>
      obtain ⟨hrest, hfilled⟩ := ih fun element helement => h element (List.mem_cons_of_mem _ helement)
      rw [List.intercalate_cons_cons]
      refine ⟨⟨?_, ⟨fun c hc => ?_, fun c hc => ?_⟩⟩, fun _ => ?_⟩
      · simp only [List.mem_append, List.mem_singleton, not_or]
        exact ⟨⟨hfirst.isValue.newline, by decide⟩, hrest.newline⟩
      · rw [List.append_assoc, List.head?_append_of_ne_nil _ hfirst.filled] at hc
        exact hfirst.isValue.trimmed.first c hc
      · rw [List.getLast?_append_of_ne_nil _ (hfilled (List.cons_ne_nil _ _))] at hc
        exact hrest.trimmed.last c hc
      · rw [List.append_assoc]
        exact List.append_ne_nil_of_left_ne_nil hfirst.filled _

/-- **Joined elements are cut out as they were.** -/
theorem listElements_intercalate {elements : List Text}
    (h : ∀ element ∈ elements, IsElement element) :
    listElements ([','].intercalate elements) = elements := by
  cases elements with
  | nil => rfl
  | cons first rest =>
    have hsplit : ([','].intercalate (first :: rest)).splitOn ',' = first :: rest :=
      List.splitOn_intercalate ',' (fun l hl => (h l hl).noComma) (List.cons_ne_nil _ _)
    have htrim : (first :: rest).map trimmed = first :: rest :=
      (List.map_congr_left fun l hl => Lines.trim_of_trimmed (h l hl).isValue.trimmed).trans
        (List.map_id _)
    rw [listElements, hsplit, htrim]
    exact List.filter_eq_self.mpr fun l hl => decide_eq_true (h l hl).filled

theorem isElement_of_mem_sort {values : Finset String} (h : ∀ text ∈ values, IsElement text.toList) :
    ∀ element ∈ (values.sort (· ≤ ·)).map String.toList, IsElement element := by
  intro element helement
  obtain ⟨text, htext, rfl⟩ := List.mem_map.mp helement
  exact h text ((Finset.mem_sort _).mp htext)

def listLaws : FormLaws propertyLists where
  elements := id
  elementsOf value := ((listElements value).map String.ofList).toFinset
  Valid values := ∀ text ∈ values, IsElement text.toList
  elements_injective := Function.injective_id
  elementsOf_render values h := by
    show ((listElements (",".intercalate (values.sort (· ≤ ·))).toList).map String.ofList).toFinset =
      values
    rw [String.toList_intercalate]
    show ((listElements ([','].intercalate _)).map String.ofList).toFinset = values
    rw [listElements_intercalate (isElement_of_mem_sort h), List.map_map]
    ext text
    simp
  isValue_render values h := by
    show IsValue (",".intercalate (values.sort (· ≤ ·))).toList
    rw [String.toList_intercalate]
    exact (isValue_intercalate (isElement_of_mem_sort h)).1
  added := by
    intro source name properties entry properties' h
    cases h
    refine ⟨fun key hkey => ?_, _, Std.ExtTreeMap.getElem?_insert_self, ?_, fun hvalue hvalid => ?_⟩
    · rw [addPropertyList, Std.ExtTreeMap.getElem?_insert,
        if_neg fun heq => hkey (compare_eq_iff_eq.mp heq).symm]
    · rw [Option.map_id, id, id]
    · intro text htext
      rcases Finset.mem_union.mp htext with htext | htext
      · cases hexisting : properties[String.ofList entry.1]? with
        | none =>
          rw [hexisting] at htext
          cases htext
        | some values =>
          rw [hexisting] at htext
          exact hvalid values hexisting text htext
      · obtain ⟨element, helement, rfl⟩ := List.mem_map.mp (List.mem_toFinset.mp htext)
        rw [String.toList_ofList]
        exact isElement_of_mem hvalue helement
  adds := fun _ _ _ _ _ => ⟨_, rfl⟩

end Forms

-- Merged properties are read as they were
-- ---

section Unions

variable {name : String}

theorem exists_of_together {meanings : List Meaning} {key : String} {elements : Finset String}
    (h : together meanings key = (elements : WithBot (Finset String))) :
    ∃ meaning ∈ meanings, meaning key ≠ ⊥ := by
  by_contra hnone
  have hbot : ∀ meaning ∈ meanings, meaning key = ⊥ := fun meaning hmeaning =>
    by_contra fun hne => hnone ⟨meaning, hmeaning, hne⟩
  have hall : together meanings key = ⊥ := by
    clear h hnone
    induction meanings with
    | nil => rfl
    | cons first rest ih =>
      show first key ⊔ together rest key = ⊥
      rw [hbot first List.mem_cons_self, ih fun m hm => hbot m (List.mem_cons_of_mem _ hm), sup_idem]
  rw [hall] at h
  exact WithBot.bot_ne_coe h

/-- **A union of properties has the properties of the files, and no others.** -/
theorem getElem?_of_isUnion {files : List (PropertyFile plainProperties name)}
    {whole : BTreeMap String} (h : plainLaws.IsUnion files whole) (key value : String) :
    whole[key]? = some value ↔ ∃ file ∈ files, file.properties[key]? = some value := by
  have hbelow : ∀ file ∈ files, ∀ v, file.properties[key]? = some v → whole[key]? = some v := by
    intro file hfile v hv
    have hmem : plainLaws.meaning file.properties ∈
        files.map fun file => plainLaws.meaning file.properties := List.mem_map_of_mem hfile
    have hle := le_together hmem key
    rw [← show plainLaws.meaning whole = _ from h, FormLaws.meaning, FormLaws.meaning, hv] at hle
    cases hwhole : whole[key]? with
    | none =>
      rw [hwhole] at hle
      exact absurd (le_bot_iff.mp hle) WithBot.coe_ne_bot
    | some w =>
      rw [hwhole] at hle
      rw [Finset.mem_singleton.mp (WithBot.coe_le_coe.mp hle (Finset.mem_singleton_self v))]
  constructor
  · intro hvalue
    have hmeaning : together (files.map fun file => plainLaws.meaning file.properties) key =
        (plainLaws.elements value : WithBot (Finset String)) := by
      rw [← show plainLaws.meaning whole = _ from h, FormLaws.meaning, hvalue, Option.elim_some]
    obtain ⟨meaning, hmem, hne⟩ := exists_of_together hmeaning
    obtain ⟨file, hfile, rfl⟩ := List.mem_map.mp hmem
    cases hv : file.properties[key]? with
    | none =>
      rw [FormLaws.meaning, hv] at hne
      exact absurd rfl hne
    | some v =>
      have hsame := hbelow file hfile v hv
      rw [hvalue] at hsame
      exact ⟨file, hfile, hv.trans hsame.symm⟩
  · rintro ⟨file, hfile, hv⟩
    exact hbelow file hfile value hv

theorem exists_union (files : List (PropertyFile propertyLists name)) :
    ∃ whole, listLaws.IsUnion files whole := by
  induction files using List.reverseRecOn with
  | nil => exact ⟨∅, meaning_empty listLaws⟩
  | append_singleton before file ih =>
    obtain ⟨whole, hwhole⟩ := ih
    have hfile : listLaws.WellFormed file.properties :=
      wellFormed_of_parse (wellFormed_empty listLaws) file.accepted
    obtain ⟨union, hunion⟩ : ∃ union, (propertyLists.entriesOf file.properties).foldlM
        (propertyLists.add file.source name) whole = .ok union := by
      generalize propertyLists.entriesOf file.properties = entries
      clear hwhole
      induction entries generalizing whole with
      | nil => exact ⟨whole, rfl⟩
      | cons entry entries ih =>
        obtain ⟨union, hunion⟩ := ih (addPropertyList whole entry)
        exact ⟨union, Fallible.bind_eq_ok.mpr ⟨_, rfl, hunion⟩⟩
    refine ⟨union, ?_⟩
    rw [FormLaws.IsUnion, meaning_entries listLaws hunion, together_entriesOf listLaws hfile,
      together_concat, ← show listLaws.meaning whole = _ from hwhole]

end Unions

/-- **When merged properties are read as the union of the files.** Properties are, exactly
if no key and no value of a file ends in an escape; lists of values are, after each merge,
exactly if no key and no last element of the files so far does. -/
theorem properties_merge_iff (archive : FatArchive) (name : String)
    (harchive : archive.entries[name]? = none) :
    (∀ files : List (PropertyFile plainProperties name),
      (∃ whole, plainLaws.IsUnion files whole) →
        ((∀ n, 0 < n → n ≤ files.length → plainLaws.MergesToUnion archive (files.take n)) ↔
          ∀ file ∈ files, plainProperties.Escapeless file.properties)) ∧
    ∀ files : List (PropertyFile propertyLists name),
      (∀ n, 0 < n → n ≤ files.length → listLaws.MergesToUnion archive (files.take n)) ↔
        ∀ n, 0 < n → n ≤ files.length → ∀ union, listLaws.IsUnion (files.take n) union →
          propertyLists.Escapeless union := by
  refine ⟨fun files hunion => ?_, fun files => ?_⟩
  · obtain ⟨whole, hwhole⟩ := hunion
    rw [mergesToUnion_iff harchive hwhole]
    constructor
    · intro hclean file hfile key value hvalue
      have hpos : 0 < files.length := List.length_pos_of_mem hfile
      refine hclean files.length hpos le_rfl whole ?_ key value ?_
      · rwa [List.take_length]
      · exact (getElem?_of_isUnion hwhole key value).mpr ⟨file, hfile, hvalue⟩
    · intro hclean n _ _ union hunion key value hvalue
      obtain ⟨file, hfile, hv⟩ := (getElem?_of_isUnion hunion key value).mp hvalue
      exact hclean file (List.mem_of_mem_take hfile) key value hv
  · obtain ⟨whole, hwhole⟩ := exists_union files
    exact mergesToUnion_iff harchive hwhole

def oneProperty (line key value : String)
    (h : propertyEntriesFrom "dependency a:a:1" "META-INF/spring.handlers" []
      (Lines.lines line.toList) = .ok [(key.toList, value.toList)]) :
    PropertyFile plainProperties "META-INF/spring.handlers" where
  bytes := utf8 line
  source := "dependency a:a:1"
  properties := (∅ : BTreeMap String).insert key value
  accepted := by
    have hentries : propertyEntries (utf8 line) "dependency a:a:1" "META-INF/spring.handlers" =
        .ok [(key.toList, value.toList)] := by
      rw [propertyEntries, utf8, OsText.fromUtf8Lossy_toUTF8]
      exact h
    refine Fallible.bind_eq_ok.mpr ⟨_, hentries, Fallible.bind_eq_ok.mpr ⟨_, ?_, rfl⟩⟩
    have hnone : (∅ : BTreeMap String)[String.ofList key.toList]? = none :=
      Std.ExtTreeMap.getElem?_empty
    show addProperty "dependency a:a:1" "META-INF/spring.handlers" ∅ (key.toList, value.toList) =
      .ok ((∅ : BTreeMap String).insert key value)
    unfold addProperty
    dsimp only
    rw [hnone, String.ofList_toList, String.ofList_toList]

def escapedBlank : PropertyFile plainProperties "META-INF/spring.handlers" :=
  oneProperty "a=x\\ " "a" "x\\" (by decide +kernel)

def plainValue : PropertyFile plainProperties "META-INF/spring.handlers" :=
  oneProperty "a=x" "a" "x" (by decide +kernel)

theorem plain_value_is_merged : plainLaws.MergesToUnion .default [plainValue] := by
  have hescapeless : plainProperties.Escapeless plainValue.properties := by
    intro key v hv
    have hinsert : ((∅ : BTreeMap String).insert "a" "x")[key]? = some v := hv
    rw [Std.ExtTreeMap.getElem?_insert] at hinsert
    split at hinsert
    · next heq =>
      rw [← compare_eq_iff_eq.mp heq, ← Option.some.inj hinsert]
      exact ⟨by decide, by decide⟩
    · rw [Std.ExtTreeMap.getElem?_empty] at hinsert
      cases hinsert
  have hunion : plainLaws.IsUnion [plainValue] plainValue.properties := (sup_bot_eq _).symm
  exact ((properties_merge_iff .default "META-INF/spring.handlers"
    Std.ExtTreeMap.getElem?_empty).1 [plainValue] ⟨_, hunion⟩).mpr
      (List.forall_mem_singleton.mpr hescapeless) 1 (by decide) (by decide)

/-- The value is cut off after its backslash, which then escapes the end of its line. -/
theorem escaped_blank_is_not_read_back :
    ¬ plainLaws.MergesToUnion .default [escapedBlank] := by
  intro hmerges
  have hunion : plainLaws.IsUnion [escapedBlank] escapedBlank.properties := (sup_bot_eq _).symm
  have hall : ∀ n, 0 < n → n ≤ [escapedBlank].length →
      plainLaws.MergesToUnion .default ([escapedBlank].take n) := by
    intro n hpos hle
    obtain rfl : n = 1 := Nat.le_antisymm hle hpos
    exact hmerges
  have hclean := (mergesToUnion_iff Std.ExtTreeMap.getElem?_empty hunion).mp hall 1 (by decide)
    (by decide) _ hunion "a" "x\\" Std.ExtTreeMap.getElem?_insert_self
  exact absurd hclean.2 (by decide)

end JMan.Build
