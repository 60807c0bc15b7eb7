import Mathlib.Data.Finset.Sort
import JMan.Lib.Encoding
import JMan.Lib.Lines
import JMan.Lib.OsText
import JMan.Build.Generators

/-!
# JMan — the entries of a fat JAR

The entries of many archives put together into one: `merge_fat_entry` of
`jman-build/src/lib.rs` and what it routes an entry to by its name. Registries of
lines are united, properties are merged, and of other entries the first is kept.
-/

namespace JMan.Build

open JMan.Config
open Encoding (Bytes utf8)
open Lines (Text)
open OsText (fromUtf8Lossy)

instance transitive_string : IsTrans String (· ≤ ·) := ⟨fun _ _ _ => le_trans⟩

instance antisymmetric_string : Std.Antisymm (α := String) (· ≤ ·) := ⟨fun _ _ => le_antisymm⟩

structure FatEntry where
  bytes : Bytes
  source : String
deriving DecidableEq

structure FatArchive where
  entries : BTreeMap FatEntry
  warnings : List String

/-- `FatArchive::default()` -/
def FatArchive.default : FatArchive := ⟨∅, []⟩

/-- `archive.entries.insert(name, entry)` -/
def FatArchive.insert (archive : FatArchive) (name : String) (entry : FatEntry) : FatArchive :=
  { archive with entries := archive.entries.insert name entry }

-- Routing
-- ---

inductive ResourceMergeStrategy where
  | keepFirst
  | lines
  | properties
  | propertyLists
deriving DecidableEq

def startsWith (name start : String) : Bool := start.toList.isPrefixOf name.toList

def endsWith (name ending : String) : Bool := ending.toList.isSuffixOf name.toList

def resourceMergeStrategy (name : String) : ResourceMergeStrategy :=
  if startsWith name "META-INF/services/" ∨ (startsWith name "META-INF/spring/" ∧
      (endsWith name ".imports" ∨ endsWith name ".includes")) then .lines
  else if name ∈ ["META-INF/spring.factories", "META-INF/spring/aot.factories",
      "META-INF/spring.components"] then .propertyLists
  else if name ∈ ["META-INF/io.netty.versions.properties", "META-INF/spring.handlers",
      "META-INF/spring.schemas", "META-INF/spring.tooling",
      "META-INF/spring-autoconfigure-metadata.properties"] then .properties
  else .keepFirst

-- Registries of lines
-- ---

/-- `str::trim` -/
abbrev trimmed (text : Text) : Text := Lines.trim whiteSpace text

def registryLines (bytes : Bytes) : List Text :=
  ((Lines.lines (fromUtf8Lossy bytes)).map trimmed).filter fun line =>
    line ≠ [] ∧ line.head? ≠ some '#'

def mergeLineEntry (archive : FatArchive) (name : String) (bytes : Bytes) : FatArchive :=
  let existing := (archive.entries[name]?.map FatEntry.bytes).getD []
  let found := ((registryLines existing ++ registryLines bytes).map String.ofList).toFinset
  let merged := "\n".intercalate (found.sort (· ≤ ·))
  archive.insert name
    ⟨utf8 (if merged = "" then merged else merged ++ "\n"), "merged line registry"⟩

-- Properties
-- ---

def trailingSlashes (text : Text) : Nat := (text.reverse.takeWhile (· = '\\')).length

/-- A character that ends a key, when it is not escaped. -/
def IsSeparator (c : Char) : Prop := c = '=' ∨ c = ':' ∨ whiteSpace c = true

instance (c : Char) : Decidable (IsSeparator c) := inferInstanceAs (Decidable (_ ∨ _))

/-- A text up to the first separator that is not escaped, the separator, and the rest. -/
def splitSeparator (escaped : Bool) : Text → Option (Text × Char × Text)
  | [] => none
  | c :: rest =>
    if escaped then (splitSeparator false rest).map fun split => (c :: split.1, split.2)
    else if c = '\\' then (splitSeparator true rest).map fun split => (c :: split.1, split.2)
    else if IsSeparator c then some ([], c, rest)
    else (splitSeparator false rest).map fun split => (c :: split.1, split.2)

def valueAfter (separator : Char) (rest : Text) : Text :=
  if whiteSpace separator then
    match Lines.trimStart whiteSpace rest with
    | [] => []
    | c :: value => if c = '=' ∨ c = ':' then value else c :: value
  else rest

/-- The key and the value of a line that has been split at its separator. -/
def cutEntry (source name : String) (line : Text) :
    Option (Text × Char × Text) → Except BuildError (Option (Text × Text))
  | none => .error (.invalid ("unsupported property syntax in `" ++ name ++ "` from " ++ source ++
      ": `" ++ String.ofList line ++ "`"))
  | some (before, separator, rest) =>
    let key := Lines.trimEnd whiteSpace before
    if key = [] then
      .error (.invalid ("empty property key in `" ++ name ++ "` from " ++ source))
    else .ok (some (key, trimmed (valueAfter separator rest)))

def parsePropertyEntry (line : Text) (source name : String) :
    Except BuildError (Option (Text × Text)) :=
  let line := trimmed line
  if line = [] ∨ line.head? = some '#' ∨ line.head? = some '!' then .ok none
  else cutEntry source name line (splitSeparator false line)

/-- The loop over the physical lines, with the logical line up to here. -/
def propertyEntriesFrom (source name : String) (logical : Text) :
    List Text → Except BuildError (List (Text × Text))
  | [] =>
    if logical = [] then .ok []
    else .error (.invalid ("unterminated property continuation in `" ++ name ++ "` from " ++ source))
  | physical :: rest =>
    let line := if logical = [] then physical else logical ++ Lines.trimStart whiteSpace physical
    if trailingSlashes line % 2 = 1 then propertyEntriesFrom source name line.dropLast rest
    else do
      let entry ← parsePropertyEntry line source name
      let entries ← propertyEntriesFrom source name [] rest
      return entry.toList ++ entries

def propertyEntries (bytes : Bytes) (source name : String) :
    Except BuildError (List (Text × Text)) :=
  propertyEntriesFrom source name [] (Lines.lines (fromUtf8Lossy bytes))

/-- How one kind of property file is read and written: what an entry adds to the
properties before it, and how the value of a key is written. -/
structure PropertyForm (ν : Type) where
  add : String → String → BTreeMap ν → Text × Text → Except BuildError (BTreeMap ν)
  render : ν → String
  label : String

section Forms

variable {ν : Type} (form : PropertyForm ν)

def PropertyForm.parse (properties : BTreeMap ν) (bytes : Bytes) (source name : String) :
    Except BuildError (BTreeMap ν) := do
  let entries ← propertyEntries bytes source name
  entries.foldlM (form.add source name) properties

/-- What is read of the file that is already in an archive. -/
def PropertyForm.existing (archive : FatArchive) (name : String) : Except BuildError (BTreeMap ν) :=
  match archive.entries[name]? with
  | some existing => form.parse ∅ existing.bytes existing.source name
  | none => .ok ∅

/-- Properties as they are written: a comment, then a line for each key. -/
def PropertyForm.emit (properties : BTreeMap ν) : String :=
  "# Merged by JMAN\n" ++
    String.join (properties.toList.map fun entry => entry.1 ++ "=" ++ form.render entry.2 ++ "\n")

def PropertyForm.merge (archive : FatArchive) (name : String) (bytes : Bytes) (source : String) :
    Except BuildError FatArchive := do
  let properties ← form.existing archive name
  let properties ← form.parse properties bytes source name
  return archive.insert name ⟨utf8 (form.emit properties), form.label⟩

end Forms

/-- One turn of the loop of `parse_properties`. -/
def addProperty (source name : String) (properties : BTreeMap String) (entry : Text × Text) :
    Except BuildError (BTreeMap String) :=
  let key := String.ofList entry.1
  let value := String.ofList entry.2
  match properties[key]? with
  | some existing =>
    if existing ≠ value then
      .error (.invalid ("conflicting property `" ++ key ++ "` in `" ++ name ++ "` from " ++ source))
    else .ok properties
  | none => .ok (properties.insert key value)

def plainProperties : PropertyForm String where
  add := addProperty
  render := id
  label := "merged properties"

def listElements (value : Text) : List Text :=
  ((value.splitOn ',').map trimmed).filter (· ≠ [])

/-- One turn of the loop of `parse_property_lists`. -/
def addPropertyList (properties : BTreeMap (Finset String)) (entry : Text × Text) :
    BTreeMap (Finset String) :=
  let key := String.ofList entry.1
  properties.insert key
    ((properties[key]?.getD ∅) ∪ ((listElements entry.2).map String.ofList).toFinset)

def propertyLists : PropertyForm (Finset String) where
  add := fun _ _ properties entry => .ok (addPropertyList properties entry)
  render := fun values => ",".intercalate (values.sort (· ≤ ·))
  label := "merged property list registry"

def parseProperties := plainProperties.parse

def parsePropertyLists := propertyLists.parse

def mergePropertiesEntry := plainProperties.merge

def mergePropertyListEntry := propertyLists.merge

-- Other entries
-- ---

/-- `Path::new(name).extension()` -/
def extensionOf (name : String) : Option Text :=
  match (Paths.segments name).getLast? with
  | none => none
  | some file =>
    let stem := Paths.fileStem file.toList
    if file = ".." ∨ stem = file.toList then none else some (file.toList.drop (stem.length + 1))

/-- The extension is `class`, in any case. -/
def hasClassExtension (name : String) : Bool :=
  (extensionOf name).any fun extension => extension.map Char.toLower = "class".toList

/-- What is warned of: `name` is kept, and ignored from the second source. -/
def keptWarning (name kept ignored : String) : String :=
  "`" ++ name ++ "`: kept " ++ kept ++ ", ignored " ++ ignored

def insertFatEntry (archive : FatArchive) (name : String) (bytes : Bytes) (source : String) :
    Except BuildError FatArchive :=
  match archive.entries[name]? with
  | some existing =>
    if existing.bytes = bytes then .ok archive
    else if hasClassExtension name then
      .error (.invalid ("conflicting class `" ++ name ++ "` from " ++ existing.source ++ " and " ++
        source))
    else .ok { archive with warnings := archive.warnings ++ [keptWarning name existing.source source] }
  | none => .ok (archive.insert name ⟨bytes, source⟩)

def mergeFatEntry (archive : FatArchive) (name : String) (bytes : Bytes) (source : String) :
    Except BuildError FatArchive :=
  match resourceMergeStrategy name with
  | .keepFirst => insertFatEntry archive name bytes source
  | .lines => .ok (mergeLineEntry archive name bytes)
  | .properties => mergePropertiesEntry archive name bytes source
  | .propertyLists => mergePropertyListEntry archive name bytes source

/-- An entry of an archive or a class tree, under the name it is merged with. -/
structure FatInput where
  name : String
  bytes : Bytes
  source : String
deriving DecidableEq

def mergeInputs (archive : FatArchive) (inputs : List FatInput) : Except BuildError FatArchive :=
  inputs.foldlM (fun archive input => mergeFatEntry archive input.name input.bytes input.source)
    archive

-- What a registry is
-- ---

section Registries

variable {line : Text} {found : Finset String} {bytes : Bytes}

/-- A line as it stands in a registry: trimmed, not blank, and no comment. -/
structure IsRegistryLine (line : Text) : Prop where
  newline : '\n' ∉ line
  trimmed : Lines.Trimmed whiteSpace line
  filled : line ≠ []
  noComment : line.head? ≠ some '#'

def registryText (found : Finset String) : Text :=
  Lines.unlines ((found.sort (· ≤ ·)).map String.toList)

theorem registryText_empty : utf8 (String.ofList (registryText ∅)) = [] := by
  rw [registryText, Finset.sort_empty]
  rfl

theorem isRegistryLine_of_mem (h : line ∈ registryLines bytes) : IsRegistryLine line := by
  obtain ⟨hmem, hkept⟩ := List.mem_filter.mp h
  obtain ⟨physical, hphysical, rfl⟩ := List.mem_map.mp hmem
  obtain ⟨hfilled, hcomment⟩ := of_decide_eq_true hkept
  refine ⟨fun hnewline => ?_, Lines.trimmed_trim physical, hfilled, hcomment⟩
  exact Lines.newline_notMem_of_mem_lines hphysical ((Lines.trim_isInfix whiteSpace physical).subset hnewline)

/-- **A registry that was written is read as its lines.** -/
theorem registryLines_registryText (h : ∀ line ∈ found, IsRegistryLine line.toList) :
    registryLines (utf8 (String.ofList (registryText found))) =
      (found.sort (· ≤ ·)).map String.toList := by
  have hlines : ∀ line ∈ (found.sort (· ≤ ·)).map String.toList, IsRegistryLine line := by
    intro line hline
    obtain ⟨text, htext, rfl⟩ := List.mem_map.mp hline
    exact h text ((Finset.mem_sort _).mp htext)
  have hread : Lines.lines (registryText found) = (found.sort (· ≤ ·)).map String.toList :=
    Lines.lines_unlines fun line hline =>
      (hlines line hline).trimmed.isLine (hlines line hline).newline rfl
  have htrim : ((found.sort (· ≤ ·)).map String.toList).map trimmed =
      (found.sort (· ≤ ·)).map String.toList :=
    (List.map_congr_left fun line hline => Lines.trim_of_trimmed (hlines line hline).trimmed).trans
      (List.map_id _)
  rw [registryLines, utf8, OsText.fromUtf8Lossy_toUTF8, String.toList_ofList, hread, htrim]
  exact List.filter_eq_self.mpr fun line hline =>
    decide_eq_true ⟨(hlines line hline).filled, (hlines line hline).noComment⟩

theorem join_eq_registryText (h : ∀ line ∈ found, IsRegistryLine line.toList) :
    (if "\n".intercalate (found.sort (· ≤ ·)) = "" then "\n".intercalate (found.sort (· ≤ ·))
      else "\n".intercalate (found.sort (· ≤ ·)) ++ "\n") = String.ofList (registryText found) := by
  have hfilled : ∀ line ∈ found.sort (· ≤ ·), line ≠ "" := fun line hline hempty =>
    (h line ((Finset.mem_sort _).mp hline)).filled (by rw [hempty]; rfl)
  unfold registryText
  generalize found.sort (· ≤ ·) = ls at hfilled ⊢
  rw [← String.toList_inj, String.toList_ofList]
  cases ls with
  | nil => rfl
  | cons line ls =>
    have hne : "\n".intercalate (line :: ls) ≠ "" := by
      intro hempty
      refine hfilled line List.mem_cons_self ?_
      cases ls with
      | nil => rwa [String.intercalate_singleton] at hempty
      | cons next ls =>
        rw [String.intercalate_cons_cons, String.append_eq_empty_iff,
          String.append_eq_empty_iff] at hempty
        exact hempty.1.1
    rw [if_neg hne, String.toList_append, String.toList_intercalate]
    exact Lines.intercalate_append line.toList (ls.map String.toList)

def linesOf (bytes : Bytes) : Finset String := ((registryLines bytes).map String.ofList).toFinset

theorem isRegistryLine_of_mem_linesOf {text : String} (h : text ∈ linesOf bytes) :
    IsRegistryLine text.toList := by
  obtain ⟨line, hline, rfl⟩ := List.mem_map.mp (List.mem_toFinset.mp h)
  rw [String.toList_ofList]
  exact isRegistryLine_of_mem hline

theorem linesOf_registryText (h : ∀ line ∈ found, IsRegistryLine line.toList) :
    linesOf (utf8 (String.ofList (registryText found))) = found := by
  rw [linesOf, registryLines_registryText h, List.map_map]
  ext text
  simp

theorem bytes_mergeLineEntry {archive : FatArchive} {name : String}
    (hfound : ∀ line ∈ found, IsRegistryLine line.toList)
    (hexisting : (archive.entries[name]?.map FatEntry.bytes).getD [] =
      utf8 (String.ofList (registryText found))) :
    (mergeLineEntry archive name bytes).entries[name]?.map FatEntry.bytes =
      some (utf8 (String.ofList (registryText (found ∪ linesOf bytes)))) := by
  have hunion : ((registryLines (utf8 (String.ofList (registryText found))) ++
      registryLines bytes).map String.ofList).toFinset = found ∪ linesOf bytes := by
    rw [List.map_append, List.toFinset_append, ← linesOf, ← linesOf, linesOf_registryText hfound]
  have hall : ∀ line ∈ found ∪ linesOf bytes, IsRegistryLine line.toList := by
    intro line hline
    rcases Finset.mem_union.mp hline with hline | hline
    · exact hfound line hline
    · exact isRegistryLine_of_mem_linesOf hline
  simp only [mergeLineEntry, FatArchive.insert, hexisting, hunion, join_eq_registryText hall,
    Std.ExtTreeMap.getElem?_insert_self, Option.map_some]

end Registries

-- One merge
-- ---

section Steps

variable {archive archive' : FatArchive} {name other : String} {bytes : Bytes} {source : String}

theorem getElem?_insert (entry : FatEntry) (h : other ≠ name) :
    (archive.insert name entry).entries[other]? = archive.entries[other]? := by
  show (archive.entries.insert name entry)[other]? = _
  rw [Std.ExtTreeMap.getElem?_insert, if_neg (fun heq => h (compare_eq_iff_eq.mp heq).symm)]

theorem getElem?_insert_self (entry : FatEntry) :
    (archive.insert name entry).entries[name]? = some entry :=
  Std.ExtTreeMap.getElem?_insert_self

theorem insertFatEntry_eq_ok (h : insertFatEntry archive name bytes source = .ok archive') :
    (archive.entries[name]? = none ∧ archive' = archive.insert name ⟨bytes, source⟩) ∨
    ∃ existing, archive.entries[name]? = some existing ∧
      (existing.bytes = bytes ∧ archive' = archive ∨
        existing.bytes ≠ bytes ∧ hasClassExtension name = false ∧ archive' = { archive with
          warnings := archive.warnings ++ [keptWarning name existing.source source] }) := by
  unfold insertFatEntry at h
  cases hexisting : archive.entries[name]? with
  | none =>
    rw [hexisting] at h
    cases h
    exact Or.inl ⟨rfl, rfl⟩
  | some existing =>
    rw [hexisting] at h
    refine Or.inr ⟨existing, rfl, ?_⟩
    by_cases hbytes : existing.bytes = bytes
    · simp only [hbytes, if_true] at h
      cases h
      exact Or.inl ⟨hbytes, rfl⟩
    · simp only [hbytes, if_false] at h
      split at h
      · cases h
      · next hclass =>
        cases h
        exact Or.inr ⟨hbytes, Bool.eq_false_iff.mpr hclass, rfl⟩

theorem PropertyForm.merge_eq_ok {ν : Type} {form : PropertyForm ν}
    (h : form.merge archive name bytes source = .ok archive') :
    ∃ entry, archive' = archive.insert name entry := by
  obtain ⟨existing, -, h⟩ := Fallible.bind_eq_ok.mp h
  obtain ⟨properties, -, h⟩ := Fallible.bind_eq_ok.mp h
  cases h
  exact ⟨_, rfl⟩

theorem mergeFatEntry_of_ne (hstrategy : resourceMergeStrategy name ≠ .keepFirst)
    (h : mergeFatEntry archive name bytes source = .ok archive') :
    ∃ entry, archive' = archive.insert name entry := by
  unfold mergeFatEntry at h
  cases hname : resourceMergeStrategy name with
  | keepFirst => exact absurd hname hstrategy
  | lines =>
    rw [hname] at h
    cases h
    exact ⟨_, rfl⟩
  | properties =>
    rw [hname] at h
    exact PropertyForm.merge_eq_ok h
  | propertyLists =>
    rw [hname] at h
    exact PropertyForm.merge_eq_ok h

theorem getElem?_mergeFatEntry (h : mergeFatEntry archive name bytes source = .ok archive')
    (hother : other ≠ name) : archive'.entries[other]? = archive.entries[other]? := by
  by_cases hstrategy : resourceMergeStrategy name = .keepFirst
  · rw [mergeFatEntry, hstrategy] at h
    rcases insertFatEntry_eq_ok h with ⟨-, rfl⟩ | ⟨existing, -, ⟨-, rfl⟩ | ⟨-, -, rfl⟩⟩
    · exact getElem?_insert _ hother
    · rfl
    · rfl
  · obtain ⟨entry, rfl⟩ := mergeFatEntry_of_ne hstrategy h
    exact getElem?_insert _ hother

theorem warnings_mergeFatEntry (h : mergeFatEntry archive name bytes source = .ok archive') :
    archive.warnings <+: archive'.warnings := by
  by_cases hstrategy : resourceMergeStrategy name = .keepFirst
  · rw [mergeFatEntry, hstrategy] at h
    rcases insertFatEntry_eq_ok h with ⟨-, rfl⟩ | ⟨existing, -, ⟨-, rfl⟩ | ⟨-, -, rfl⟩⟩
    · exact List.prefix_refl _
    · exact List.prefix_refl _
    · exact List.prefix_append _ _
  · obtain ⟨entry, rfl⟩ := mergeFatEntry_of_ne hstrategy h
    exact List.prefix_refl _

end Steps

-- Runs of merges
-- ---

section Runs

variable {archive start : FatArchive} {inputs before after : List FatInput} {input : FatInput}
  {name : String}

theorem mergeInputs_append : mergeInputs start (before ++ after) = .ok archive ↔
    ∃ merged, mergeInputs start before = .ok merged ∧ mergeInputs merged after = .ok archive := by
  rw [mergeInputs, List.foldlM_append]
  exact Fallible.bind_eq_ok

theorem mergeInputs_concat : mergeInputs start (before ++ [input]) = .ok archive ↔
    ∃ merged, mergeInputs start before = .ok merged ∧
      mergeFatEntry merged input.name input.bytes input.source = .ok archive := by
  rw [mergeInputs_append]
  refine exists_congr fun merged => and_congr_right fun _ => ?_
  show (mergeFatEntry merged input.name input.bytes input.source >>= pure) = _ ↔ _
  rw [bind_pure]

theorem warnings_mergeInputs (h : mergeInputs start inputs = .ok archive) :
    start.warnings <+: archive.warnings := by
  induction inputs using List.reverseRecOn generalizing archive with
  | nil =>
    cases h
    exact List.prefix_refl _
  | append_singleton before input ih =>
    obtain ⟨merged, hbefore, hinput⟩ := mergeInputs_concat.mp h
    exact (ih hbefore).trans (warnings_mergeFatEntry hinput)

theorem exists_mem_concat {α : Type} {p : α → Prop} (as : List α) (a : α) :
    (∃ x ∈ as ++ [a], p x) ↔ (∃ x ∈ as, p x) ∨ p a := by
  simp only [List.mem_append, List.mem_singleton, or_and_right, exists_or, exists_eq_left]

def registeredLines (name : String) (inputs : List FatInput) : Finset String :=
  ((inputs.filter (·.name = name)).flatMap fun input =>
    (registryLines input.bytes).map String.ofList).toFinset

theorem mem_registeredLines {text : String} : text ∈ registeredLines name inputs ↔
    ∃ input ∈ inputs, input.name = name ∧ text ∈ linesOf input.bytes := by
  simp [registeredLines, linesOf, and_assoc]

theorem registeredLines_concat_self : registeredLines input.name (before ++ [input]) =
    registeredLines input.name before ∪ linesOf input.bytes := by
  ext text
  rw [Finset.mem_union, mem_registeredLines, mem_registeredLines, exists_mem_concat,
    and_iff_right rfl]

theorem registeredLines_concat_of_ne (h : input.name ≠ name) :
    registeredLines name (before ++ [input]) = registeredLines name before := by
  ext text
  rw [mem_registeredLines, mem_registeredLines, exists_mem_concat,
    or_iff_left fun hinput => h hinput.1]

theorem isRegistryLine_of_registered {text : String} (h : text ∈ registeredLines name inputs) :
    IsRegistryLine text.toList := by
  obtain ⟨input, -, -, hline⟩ := mem_registeredLines.mp h
  exact isRegistryLine_of_mem_linesOf hline

/-- **A registry is the set of the lines of all inputs.** -/
theorem registry_of_mergeInputs (hname : resourceMergeStrategy name = .lines)
    (h : mergeInputs .default inputs = .ok archive) :
    archive.entries[name]?.map FatEntry.bytes =
      if ∃ input ∈ inputs, input.name = name then
        some (utf8 (String.ofList (registryText (registeredLines name inputs))))
      else none := by
  induction inputs using List.reverseRecOn generalizing archive with
  | nil =>
    cases h
    rw [if_neg (by simp)]
    rfl
  | append_singleton before input ih =>
    obtain ⟨merged, hbefore, hinput⟩ := mergeInputs_concat.mp h
    have hmerged := ih hbefore
    by_cases hinputName : input.name = name
    · subst hinputName
      rw [mergeFatEntry, hname] at hinput
      cases hinput
      rw [if_pos ⟨input, List.mem_append_right _ List.mem_cons_self, rfl⟩,
        registeredLines_concat_self]
      refine bytes_mergeLineEntry (fun line => isRegistryLine_of_registered) ?_
      rw [hmerged]
      split
      · rfl
      · next hnone =>
        have hempty : registeredLines input.name before = ∅ := by
          refine Finset.eq_empty_of_forall_notMem fun text htext => hnone ?_
          obtain ⟨earlier, hmem, hsame, -⟩ := mem_registeredLines.mp htext
          exact ⟨earlier, hmem, hsame⟩
        rw [hempty, registryText_empty]
        rfl
    · rw [getElem?_mergeFatEntry hinput (Ne.symm hinputName), hmerged,
        registeredLines_concat_of_ne hinputName]
      refine if_congr ?_ rfl rfl
      rw [exists_mem_concat, or_iff_left hinputName]

/-- **Of other entries the first is kept.** -/
theorem kept_of_mergeInputs (hname : resourceMergeStrategy name = .keepFirst)
    (h : mergeInputs .default inputs = .ok archive) :
    archive.entries[name]? =
      (inputs.find? (·.name = name)).map fun input => ⟨input.bytes, input.source⟩ := by
  induction inputs using List.reverseRecOn generalizing archive with
  | nil =>
    cases h
    exact Std.ExtTreeMap.getElem?_empty
  | append_singleton before input ih =>
    obtain ⟨merged, hbefore, hinput⟩ := mergeInputs_concat.mp h
    have hmerged := ih hbefore
    rw [List.find?_append, List.find?_singleton]
    by_cases hinputName : input.name = name
    · subst hinputName
      rw [mergeFatEntry, hname] at hinput
      rcases insertFatEntry_eq_ok hinput with ⟨hnone, rfl⟩ | ⟨existing, hsome, hcases⟩
      · rw [hmerged, Option.map_eq_none_iff] at hnone
        rw [hnone, getElem?_insert_self]
        simp
      · rw [hmerged] at hsome
        obtain ⟨first, hfirst, -⟩ := Option.map_eq_some_iff.mp hsome
        rw [hfirst] at hmerged ⊢
        rcases hcases with ⟨-, rfl⟩ | ⟨-, -, rfl⟩
        · exact hmerged
        · exact hmerged
    · rw [getElem?_mergeFatEntry hinput (Ne.symm hinputName), hmerged]
      simp [hinputName]

theorem bytes_eq_of_class (hname : resourceMergeStrategy name = .keepFirst)
    (hclass : hasClassExtension name = true) (h : mergeInputs .default inputs = .ok archive)
    (hinput : input ∈ inputs) (hsame : input.name = name) :
    archive.entries[name]?.map FatEntry.bytes = some input.bytes := by
  induction inputs using List.reverseRecOn generalizing archive with
  | nil => cases hinput
  | append_singleton before last ih =>
    obtain ⟨merged, hbefore, hlast⟩ := mergeInputs_concat.mp h
    by_cases hlastName : last.name = name
    · subst hlastName
      rw [mergeFatEntry, hname] at hlast
      rcases insertFatEntry_eq_ok hlast with ⟨hnone, rfl⟩ | ⟨existing, hsome, hcases⟩
      · rw [getElem?_insert_self]
        rcases List.mem_append.mp hinput with hinput | hinput
        · have hkept := ih hbefore hinput
          rw [hnone] at hkept
          cases hkept
        · rw [List.mem_singleton.mp hinput]
          rfl
      · rcases hcases with ⟨hbytes, rfl⟩ | ⟨-, hnoClass, -⟩
        · rcases List.mem_append.mp hinput with hinput | hinput
          · exact ih hbefore hinput
          · rw [hsome, List.mem_singleton.mp hinput, Option.map_some, hbytes]
        · rw [hclass] at hnoClass
          cases hnoClass
    · rw [getElem?_mergeFatEntry hlast (Ne.symm hlastName)]
      rcases List.mem_append.mp hinput with hinput | hinput
      · exact ih hbefore hinput
      · rw [List.mem_singleton.mp hinput] at hsame
        exact absurd hsame hlastName

/-- **An input with other bytes than the one that is kept is warned of.** -/
theorem warned_of_mergeInputs {kept : FatInput}
    (hname : resourceMergeStrategy input.name = .keepFirst)
    (hkept : before.find? (·.name = input.name) = some kept) (hbytes : kept.bytes ≠ input.bytes)
    (h : mergeInputs .default (before ++ input :: after) = .ok archive) :
    ∃ merged later, mergeInputs .default before = .ok merged ∧ archive.warnings =
      merged.warnings ++ keptWarning input.name kept.source input.source :: later := by
  rw [← List.singleton_append, ← List.append_assoc] at h
  obtain ⟨next, hinput, hafter⟩ := mergeInputs_append.mp h
  obtain ⟨merged, hbefore, hinput⟩ := mergeInputs_concat.mp hinput
  have hentry := kept_of_mergeInputs hname hbefore
  rw [hkept] at hentry
  rw [mergeFatEntry, hname] at hinput
  rcases insertFatEntry_eq_ok hinput with ⟨hnone, -⟩ | ⟨existing, hsome, hcases⟩
  · rw [hentry] at hnone
    cases hnone
  · rw [hentry] at hsome
    cases hsome
    rcases hcases with ⟨hsame, -⟩ | ⟨-, -, rfl⟩
    · exact absurd hsame hbytes
    · obtain ⟨later, hlater⟩ := warnings_mergeInputs hafter
      refine ⟨merged, later, hbefore, ?_⟩
      rw [← hlater, List.append_assoc]
      rfl

end Runs

-- Classes
-- ---

section Classes

variable {name : String}

/-- The name of the entry of a class: a name ending in `.class`, outside `META-INF/` or
among the versions in it. -/
structure IsClassEntry (name : String) : Prop where
  named : ∃ directory simple : Text, name.toList = directory ++ simple ++ ".class".toList ∧
    simple ≠ [] ∧ '/' ∉ simple ∧ (directory = [] ∨ directory.getLast? = some '/')
  placed : startsWith name "META-INF/" = false ∨ startsWith name "META-INF/versions/" = true

theorem startsWith_trans {longer shorter : String} (h : startsWith name longer = true)
    (hshorter : startsWith longer shorter = true) : startsWith name shorter = true :=
  List.isPrefixOf_iff_prefix.mpr
    ((List.isPrefixOf_iff_prefix.mp hshorter).trans (List.isPrefixOf_iff_prefix.mp h))

theorem startsWith_or {left right : String} (hleft : startsWith name left = true)
    (hright : startsWith name right = true) :
    startsWith left right = true ∨ startsWith right left = true :=
  (List.prefix_or_prefix_of_prefix (List.isPrefixOf_iff_prefix.mp hleft)
    (List.isPrefixOf_iff_prefix.mp hright)).symm.imp List.isPrefixOf_iff_prefix.mpr
      List.isPrefixOf_iff_prefix.mpr

theorem placed_of_merged (h : resourceMergeStrategy name ≠ .keepFirst) :
    startsWith name "META-INF/" = true ∧ startsWith name "META-INF/versions/" = false := by
  have hstart : ∀ start, startsWith name start = true → startsWith start "META-INF/" = true →
      startsWith start "META-INF/versions/" = false →
      startsWith "META-INF/versions/" start = false →
      startsWith name "META-INF/" = true ∧ startsWith name "META-INF/versions/" = false := by
    intro start hname hmeta hversions hstart
    refine ⟨startsWith_trans hname hmeta, Bool.eq_false_iff.mpr fun hversion => ?_⟩
    rcases startsWith_or hname hversion with hbegins | hbegins
    · rw [hversions] at hbegins
      cases hbegins
    · rw [hstart] at hbegins
      cases hbegins
  have hself : ∀ text : String, startsWith text text = true := fun text =>
    List.isPrefixOf_iff_prefix.mpr (List.prefix_refl _)
  unfold resourceMergeStrategy at h
  split at h
  · next hlines =>
    rcases hlines with hservices | ⟨hspring, -⟩
    · exact hstart _ hservices (by decide) (by decide) (by decide)
    · exact hstart _ hspring (by decide) (by decide) (by decide)
  split at h
  · next hlists =>
    simp only [List.mem_cons, List.not_mem_nil, or_false] at hlists
    rcases hlists with rfl | rfl | rfl <;>
      exact hstart _ (hself _) (by decide) (by decide) (by decide)
  split at h
  · next hproperties =>
    simp only [List.mem_cons, List.not_mem_nil, or_false] at hproperties
    rcases hproperties with rfl | rfl | rfl | rfl | rfl <;>
      exact hstart _ (hself _) (by decide) (by decide) (by decide)
  · exact absurd rfl h

theorem strategy_of_class (h : IsClassEntry name) : resourceMergeStrategy name = .keepFirst := by
  by_contra hmerged
  obtain ⟨hmeta, hversions⟩ := placed_of_merged hmerged
  rcases h.placed with hplaced | hplaced
  · rw [hmeta] at hplaced
    cases hplaced
  · rw [hversions] at hplaced
    cases hplaced

theorem segments_of_file {file : Text} (hslash : '/' ∉ file) (hne : file ≠ []) (hdot : file ≠ ['.']) :
    Paths.segments (String.ofList file) = [String.ofList file] := by
  rw [Paths.segments, String.toList_ofList, List.splitOn_eq_singleton hslash, List.map_singleton, List.filter_singleton]
  have hkept : String.ofList file ≠ "" ∧ String.ofList file ≠ "." := by
    constructor
    · intro h
      exact hne (String.ofList_injective h)
    · intro h
      exact hdot (String.ofList_injective h)
  rw [decide_eq_true hkept]
  rfl

theorem fileStem_class {simple : Text} (hne : simple ≠ []) :
    Paths.fileStem (simple ++ ".class".toList) = simple := by
  obtain ⟨c, before, hreverse⟩ := List.exists_cons_of_ne_nil (List.reverse_ne_nil_iff.mpr hne)
  have hdrop : (simple ++ ".class".toList).reverse.dropWhile (· ≠ '.') = '.' :: c :: before := by
    rw [List.reverse_append, hreverse]
    rfl
  rw [Paths.fileStem, hdrop]
  show (c :: before).reverse = simple
  rw [← hreverse, List.reverse_reverse]

theorem extensionOf_eq {file stem : Text}
    (hlast : (Paths.segments name).getLast? = some (String.ofList file))
    (hparent : String.ofList file ≠ "..") (hstem : Paths.fileStem file = stem) (hne : stem ≠ file) :
    extensionOf name = some (file.drop (stem.length + 1)) := by
  subst hstem
  rw [extensionOf, hlast]
  show (if String.ofList file = ".." ∨ Paths.fileStem (String.ofList file).toList =
    (String.ofList file).toList then none else _) = _
  rw [String.toList_ofList, if_neg (not_or.mpr ⟨hparent, hne⟩)]

theorem hasClassExtension_of_class (h : IsClassEntry name) : hasClassExtension name = true := by
  obtain ⟨directory, simple, hname, hne, hslash, hdirectory⟩ := h.named
  have hfileSlash : '/' ∉ simple ++ ".class".toList := by
    rw [List.mem_append, not_or]
    exact ⟨hslash, by decide⟩
  have hlength : (simple ++ ".class".toList).length = simple.length + 6 := List.length_append
  have hfile : Paths.segments (String.ofList (simple ++ ".class".toList)) =
      [String.ofList (simple ++ ".class".toList)] := by
    refine segments_of_file hfileSlash (fun h => ?_) fun h => ?_
    · rw [h, List.length_nil] at hlength
      omega
    · rw [h, List.length_singleton] at hlength
      omega
  have hlast : (Paths.segments name).getLast? = some (String.ofList (simple ++ ".class".toList)) := by
    rcases hdirectory with rfl | hdirectory
    · rw [← String.ofList_toList (s := name), hname, List.nil_append, hfile]
      rfl
    · obtain ⟨above, rfl⟩ := List.getLast?_eq_some_iff.mp hdirectory
      have hsplit : name = String.ofList above ++ "/" ++ String.ofList (simple ++ ".class".toList) := by
        rw [← String.toList_inj, hname]
        simp
      rw [hsplit, Paths.segments_slash, hfile, List.getLast?_append]
      rfl
  have hparent : String.ofList (simple ++ ".class".toList) ≠ ".." := by
    intro hdots
    have htwo := congrArg String.length hdots
    rw [String.length_ofList, hlength] at htwo
    exact absurd htwo (by show ¬ simple.length + 6 = 2; omega)
  have hlonger : simple ≠ simple ++ ".class".toList := by
    intro hsame
    have hsix := congrArg List.length hsame
    omega
  rw [hasClassExtension, extensionOf_eq hlast hparent (fileStem_class hne) hlonger,
    List.drop_length_add_append 1]
  rfl

end Classes

-- Nothing is lost silently
-- ---

/-- **What merging keeps of its inputs.** Registries are sets of lines in whatever order
the inputs come, classes with one name have the same bytes, and an entry with other
bytes than the one that is kept is warned of. -/
theorem fat_merging_keeps (inputs : List FatInput) (archive : FatArchive)
    (h : mergeInputs .default inputs = .ok archive) :
    (∀ name, resourceMergeStrategy name = .lines →
      archive.entries[name]?.map FatEntry.bytes = (if ∃ input ∈ inputs, input.name = name then
        some (utf8 (String.ofList (registryText (registeredLines name inputs)))) else none) ∧
      ∀ permuted other, permuted.Perm inputs → mergeInputs .default permuted = .ok other →
        other.entries[name]?.map FatEntry.bytes = archive.entries[name]?.map FatEntry.bytes) ∧
    (∀ left ∈ inputs, ∀ right ∈ inputs, IsClassEntry left.name → left.name = right.name →
      left.bytes = right.bytes) ∧
    ∀ before input after kept, inputs = before ++ input :: after →
      resourceMergeStrategy input.name = .keepFirst →
      before.find? (·.name = input.name) = some kept → kept.bytes ≠ input.bytes →
        ∃ merged later, mergeInputs .default before = .ok merged ∧ archive.warnings =
          merged.warnings ++ keptWarning input.name kept.source input.source :: later := by
  refine ⟨fun name hname => ⟨registry_of_mergeInputs hname h, fun permuted other hperm hother => ?_⟩,
    fun left hleft right hright hclass hsame => ?_, fun before input after kept hsplit hname hkept
      hbytes => ?_⟩
  · have hlines : registeredLines name permuted = registeredLines name inputs := by
      ext text
      rw [mem_registeredLines, mem_registeredLines]
      exact exists_congr fun input => and_congr_left fun _ => hperm.mem_iff
    rw [registry_of_mergeInputs hname hother, registry_of_mergeInputs hname h, hlines]
    exact if_congr (exists_congr fun input => and_congr_left fun _ => hperm.mem_iff) rfl rfl
  · have hkeep := strategy_of_class hclass
    have hextension := hasClassExtension_of_class hclass
    have hfirst := bytes_eq_of_class hkeep hextension h hleft rfl
    rw [bytes_eq_of_class hkeep hextension h hright hsame.symm] at hfirst
    exact (Option.some.inj hfirst).symm
  · subst hsplit
    exact warned_of_mergeInputs hname hkept hbytes h

def repeatedEntry : List FatInput :=
  [⟨"about.html", [60, 62], "dependency a:a:1"⟩, ⟨"about.html", [60, 62], "dependency b:b:1"⟩]

theorem mergeInputs_repeatedEntry : mergeInputs .default repeatedEntry =
    .ok (FatArchive.default.insert "about.html" ⟨[60, 62], "dependency a:a:1"⟩) := by
  have hstrategy : resourceMergeStrategy "about.html" = .keepFirst := by decide
  have hfirst : mergeFatEntry .default "about.html" [60, 62] "dependency a:a:1" =
      .ok (FatArchive.default.insert "about.html" ⟨[60, 62], "dependency a:a:1"⟩) := by
    have hnone : FatArchive.default.entries["about.html"]? = none := Std.ExtTreeMap.getElem?_empty
    rw [mergeFatEntry, hstrategy]
    show insertFatEntry _ _ _ _ = _
    rw [insertFatEntry, hnone]
  have hsecond : mergeFatEntry (FatArchive.default.insert "about.html" ⟨[60, 62], "dependency a:a:1"⟩)
      "about.html" [60, 62] "dependency b:b:1" =
      .ok (FatArchive.default.insert "about.html" ⟨[60, 62], "dependency a:a:1"⟩) := by
    rw [mergeFatEntry, hstrategy]
    show insertFatEntry _ _ _ _ = _
    rw [insertFatEntry, getElem?_insert_self]
    exact if_pos rfl
  have hone : mergeInputs .default ([] ++ [⟨"about.html", [60, 62], "dependency a:a:1"⟩]) =
      .ok (FatArchive.default.insert "about.html" ⟨[60, 62], "dependency a:a:1"⟩) :=
    mergeInputs_concat.mpr ⟨_, rfl, hfirst⟩
  exact mergeInputs_concat.mpr ⟨_, hone, hsecond⟩

theorem repeated_entry_is_kept :
    ∃ archive : FatArchive, archive.entries["about.html"]?.map FatEntry.bytes = some [60, 62] ∧
      ∀ before input after kept, repeatedEntry = before ++ input :: after →
        resourceMergeStrategy input.name = .keepFirst →
        before.find? (·.name = input.name) = some kept → kept.bytes ≠ input.bytes →
          ∃ merged later, mergeInputs .default before = .ok merged ∧ archive.warnings =
            merged.warnings ++ keptWarning input.name kept.source input.source :: later :=
  ⟨_, congrArg (Option.map FatEntry.bytes) (getElem?_insert_self _),
    (fat_merging_keeps repeatedEntry _ mergeInputs_repeatedEntry).2.2⟩

theorem repeated_entry_without_warning :
    ¬ ∀ (inputs : List FatInput) (archive : FatArchive), mergeInputs .default inputs = .ok archive →
      ∀ before input after, inputs = before ++ input :: after →
        resourceMergeStrategy input.name = .keepFirst →
        (∃ earlier ∈ before, earlier.name = input.name) →
          ∃ warning ∈ archive.warnings, ∃ kept, warning = keptWarning input.name kept input.source := by
  intro hall
  obtain ⟨warning, hwarning, -⟩ := hall repeatedEntry _ mergeInputs_repeatedEntry
    [⟨"about.html", [60, 62], "dependency a:a:1"⟩] ⟨"about.html", [60, 62], "dependency b:b:1"⟩ []
    rfl (by decide) ⟨_, List.mem_cons_self, rfl⟩
  cases hwarning

end JMan.Build
