import JMan.Lib.Lines
import JMan.Resolver.Cache

/-!
# JMan — coordinates as text

A coordinate is written `group:artifact[:extension[:classifier]]:version`. The
writer chooses the form by two of the fields, the reader by the number of the
pieces, and only one form is written in two ways: a jar without classifier may
name its extension.

* `Coordinate.text_roundTrip` — writing and reading back, either way round, and
  texts that tell coordinates apart.
-/

namespace JMan.Resolver

-- Pieces between colons

def pieces (value : String) : List String := (value.toList.splitOn ':').map String.ofList

theorem toList_joined (parts : List String) :
    (joined parts).toList = [':'].intercalate (parts.map String.toList) := by
  induction parts with
  | nil => rfl
  | cons x parts ih =>
    cases parts with
    | nil => simp [joined]
    | cons y parts =>
      show (x ++ ":" ++ joined (y :: parts)).toList = _
      rw [String.toList_append, String.toList_append, ih]
      simp [List.intercalate_cons_cons]

theorem joined_pieces (value : String) : joined (pieces value) = value := by
  apply String.toList_inj.mp
  rw [toList_joined, pieces, List.map_map]
  simp [Function.comp_def]

theorem pieces_joined {parts : List String} (hne : parts ≠ [])
    (hcolon : ∀ x ∈ parts, ':' ∉ x.toList) : pieces (joined parts) = parts := by
  rw [pieces, toList_joined, List.splitOn_intercalate _ (by simpa using hcolon) (by simpa using hne)]
  simp [Function.comp_def]

theorem colon_notMem_of_mem_pieces {value x : String} (h : x ∈ pieces value) :
    ':' ∉ x.toList := by
  obtain ⟨piece, hpiece, rfl⟩ := List.mem_map.mp h
  simpa using (Lines.piece_of_splitOn hpiece).1

-- What is read

namespace Coordinate

def fields (c : Coordinate) : List String :=
  [c.group, c.artifact, c.extension] ++ c.classifier.toList ++ [c.version]

def Written (c : Coordinate) : Prop := ∀ x ∈ c.fields, x ≠ "" ∧ ':' ∉ x.toList

instance (c : Coordinate) : Decidable c.Written :=
  inferInstanceAs (Decidable (∀ x ∈ c.fields, x ≠ "" ∧ ':' ∉ x.toList))

/-- The texts of a coordinate: the one that is displayed, and the one that names
every field. -/
def spellings (c : Coordinate) : List String := [c.toString, joined c.fields]

theorem Written.colonFree {c : Coordinate} (h : c.Written) : c.ColonFree := by
  simp only [Written, fields, List.cons_append, List.nil_append, List.forall_mem_cons,
    List.forall_mem_append] at h
  obtain ⟨hgroup, hartifact, hextension, hclassifier, hversion, -⟩ := h
  refine ⟨hgroup.2, hartifact.2, hversion.2, hextension.2, fun classifier hsome => ?_⟩
  exact (hclassifier classifier (by simp [hsome])).2

theorem mem_fields_of_mem_shown {c : Coordinate} {x : String}
    (h : x ∈ c.group :: c.artifact :: c.shown) : x ∈ c.fields := by
  unfold shown at h
  unfold fields
  cases hclassifier : c.classifier with
  | none =>
    rw [hclassifier] at h
    by_cases hjar : c.extension = "jar"
    · simp only [hjar, if_true, List.mem_cons] at h
      simp only [List.mem_append, List.mem_cons, Option.toList]
      tauto
    · simpa [hjar, or_assoc] using h
  | some classifier => simpa [hclassifier, or_assoc] using h

theorem parse_joined {parts : List String} (hne : parts ≠ [])
    (hparts : ∀ x ∈ parts, x ≠ "" ∧ ':' ∉ x.toList) (c : Coordinate) :
    parse (joined parts) = .ok c ↔
      parts = [c.group, c.artifact, c.version] ∧ c.extension = "jar" ∧ c.classifier = none ∨
      parts = [c.group, c.artifact, c.extension, c.version] ∧ c.classifier = none ∨
      ∃ classifier, c.classifier = some classifier ∧
        parts = [c.group, c.artifact, c.extension, classifier, c.version] := by
  have hpieces : pieces (joined parts) = parts := pieces_joined hne (fun x hx => (hparts x hx).2)
  have hempty : "" ∉ parts := fun h => (hparts "" h).1 rfl
  obtain ⟨group, artifact, version, extension, classifier⟩ := c
  unfold parse
  rw [show ((joined parts).toList.splitOn ':').map String.ofList = parts from hpieces]
  simp only [if_neg hempty]
  split <;> cases classifier <;> simp [jar] <;> grind

theorem fields_ne_nil (c : Coordinate) : c.fields ≠ [] := by
  show c.group :: _ ≠ []
  simp

theorem parse_of_mem_spellings {c : Coordinate} {value : String} (hc : c.Written)
    (h : value ∈ c.spellings) : parse value = .ok c := by
  rw [spellings, toString_eq] at h
  rcases List.mem_cons.mp h with rfl | h
  · rw [parse_joined (by simp) (fun x hx => hc x (mem_fields_of_mem_shown hx))]
    unfold shown
    cases c.classifier with
    | none => by_cases hjar : c.extension = "jar" <;> simp [hjar]
    | some classifier => simp
  · obtain rfl := List.mem_singleton.mp h
    rw [parse_joined c.fields_ne_nil hc]
    unfold fields
    cases c.classifier <;> simp

theorem written_of_fields {c : Coordinate} {value : String} (hfields : c.fields = pieces value)
    (hparts : ∀ x ∈ pieces value, x ≠ "" ∧ ':' ∉ x.toList) :
    c.Written ∧ value ∈ c.spellings := by
  rw [Written, spellings, hfields, joined_pieces]
  exact ⟨hparts, by simp⟩

/-- **The texts that are read as a coordinate are its spellings.** -/
theorem parse_eq_ok_iff {c : Coordinate} {value : String} :
    parse value = .ok c ↔ c.Written ∧ value ∈ c.spellings := by
  refine ⟨fun h => ?_, fun h => parse_of_mem_spellings h.1 h.2⟩
  have hempty : "" ∉ pieces value := by
    intro hmem
    rw [parse, if_pos (show "" ∈ (value.toList.splitOn ':').map String.ofList from hmem)] at h
    cases h
  have hparts : ∀ x ∈ pieces value, x ≠ "" ∧ ':' ∉ x.toList := fun x hx =>
    ⟨fun hx' => hempty (hx' ▸ hx), colon_notMem_of_mem_pieces hx⟩
  have hne : pieces value ≠ [] := by simp [pieces]
  rw [← joined_pieces value, parse_joined hne hparts] at h
  -- the form is told by the number of the pieces
  rcases h with ⟨hthree, hjar, hnone⟩ | ⟨hfour, hnone⟩ | ⟨classifier, hsome, hfive⟩
  · refine ⟨?_, List.mem_cons.mpr (Or.inl ?_)⟩
    · rw [hthree] at hparts
      simp only [List.forall_mem_cons] at hparts
      simp [Written, fields, hjar, hnone, hparts]
    · rw [← joined_pieces value, hthree, toString_eq, shown, hnone]
      simp [hjar]
  · exact written_of_fields (by rw [hfour, fields, hnone]; rfl) hparts
  · exact written_of_fields (by rw [hfive, fields, hsome]; rfl) hparts

/-- **Coordinates and their texts.** A coordinate whose fields are not empty and
hold no colon is read back from its text, no two of them have one text, and a
text that is accepted is read as a coordinate whose own text is read the same. -/
theorem text_roundTrip :
    (∀ c : Coordinate, c.Written → parse c.toString = .ok c) ∧
      (∀ c d : Coordinate, c.Written → d.Written → c.toString = d.toString → c = d) ∧
      ∀ (value : String) (c : Coordinate), parse value = .ok c → parse c.toString = .ok c := by
  refine ⟨fun c hc => parse_of_mem_spellings hc (List.mem_cons_self ..), ?_, ?_⟩
  · intro c d hc hd h
    exact toString_inj hc.colonFree hd.colonFree h
  · intro value c h
    exact parse_of_mem_spellings (parse_eq_ok_iff.mp h).1 (List.mem_cons_self ..)

def sourcesJar : Coordinate :=
  { group := "dev.jman", artifact := "tool", version := "1", extension := "jar",
    classifier := some "sources" }

theorem text_roundTrip_sources : sourcesJar.Written ∧
    parse "dev.jman:tool:jar:sources:1" = .ok sourcesJar := by
  have hwritten : sourcesJar.Written := by decide
  exact ⟨hwritten, text_roundTrip.1 sourcesJar hwritten⟩

end Coordinate

end JMan.Resolver
