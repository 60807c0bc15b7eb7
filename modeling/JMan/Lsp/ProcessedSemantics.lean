import Mathlib.Data.Bool.AllAny
import JMan.Lib.Encoding
import JMan.Lib.JavaProperties

/-!
# JMan — requests to the semantic worker

`processed_semantics.rs` writes a request as a property file, and
`ProcessedSemanticWorker.java` loads it. The writer puts a backslash before a fixed set of
characters, which leaves blanks in front of a value and line ends in it as they are: the
first are passed over and the second end the line (`indented_option_is_read_otherwise`).
What the worker reads is what was asked exactly when no string has either, no list is
longer than an `int` and the source is not empty (`request_round_trips_iff`).

* `WorkerRequest` — what `execute` reads with `required` and `values`, before it parses
  numbers and decodes the source.
* `Encoder` — what is assumed of the base64 encoder, which is a package of its own.
-/

namespace JMan.Lsp.ProcessedSemantics

open JavaProperties (Text Entries load getProperty OneLine Flush Spells Named)

-- The request
-- ---

structure ProcessedSemanticRequest where
  fileName : Text
  source : Text
  release : UInt8
  classpath : List Text
  modulePath : List Text
  sourcePath : List Text
  processorPath : List Text
  processorOptions : List Text
  compilerOptions : List Text

/-- What a worker is asked for; a query has a cursor. -/
inductive Operation where
  | analyze
  | query (cursor : UInt32)

def Operation.text : Operation → Text
  | .analyze => "analyze".toList
  | .query _ => "query".toList

def Operation.cursor : Operation → Option UInt32
  | .analyze => none
  | .query cursor => some cursor

def numeral (n : Nat) : Text := (toString n).toList

def escapeCharacter (c : Char) : Text :=
  if c ∈ ['\\', ':', '=', '#', '!'] then ['\\', c] else [c]

def escape (value : Text) : Text := value.flatMap escapeCharacter

def property (name value : Text) : Text := name ++ '=' :: escape value ++ ['\n']

def countName (name : Text) : Text := name ++ '.' :: "count".toList

def indexName (name : Text) (index : Nat) : Text := name ++ '.' :: numeral index

/-- `string_list`, and `path_list` of paths that are texts -/
def stringList (name : Text) (values : List Text) : Text :=
  property (countName name) (numeral values.length) ++
    (values.zipIdx.flatMap fun value => property (indexName name value.2) value.1)

section Writer

variable (encode : Text → Text) (request : ProcessedSemanticRequest) (operation : Operation)

def protocolVersion : Nat := 1

def toProperties : Text :=
  property "protocol.version".toList (numeral protocolVersion) ++
    property "operation".toList operation.text ++
    property "file.name".toList request.fileName ++
    property "source.base64".toList (encode request.source) ++
    property "release".toList (numeral request.release.toNat) ++
    (operation.cursor.map fun cursor => property "cursor".toList (numeral cursor.toNat)).getD [] ++
    stringList "classpath".toList request.classpath ++
    stringList "module.path".toList request.modulePath ++
    stringList "source.path".toList request.sourcePath ++
    stringList "processor.path".toList request.processorPath ++
    stringList "processor.option".toList request.processorOptions ++
    stringList "compiler.option".toList request.compilerOptions

end Writer

-- The worker
-- ---

/-- `Character.isWhitespace` -/
def isWhitespace (c : Char) : Bool :=
  c.toNat ∈ [0x0020, 0x1680, 0x2000, 0x2001, 0x2002, 0x2003, 0x2004, 0x2005, 0x2006, 0x2008, 0x2009,
    0x200a, 0x2028, 0x2029, 0x205f, 0x3000] ||
  (9 ≤ c.toNat && c.toNat ≤ 13) || (0x1c ≤ c.toNat && c.toNat ≤ 0x1f)

/-- `isBlank` -/
def isBlank (value : Text) : Bool := value.all isWhitespace

def required (request : Entries) (name : Text) : Except String Text :=
  match getProperty request name with
  | none => .error ("missing processed semantic request property " ++ String.ofList name)
  | some value =>
    if isBlank value then
      .error ("missing processed semantic request property " ++ String.ofList name)
    else .ok value

/-- The zeros that one `char` holds. -/
def decimalZeros : List Nat :=
  [0x0030, 0x0660, 0x06f0, 0x07c0, 0x0966, 0x09e6, 0x0a66, 0x0ae6, 0x0b66, 0x0be6, 0x0c66, 0x0ce6,
    0x0d66, 0x0de6, 0x0e50, 0x0ed0, 0x0f20, 0x1040, 0x1090, 0x17e0, 0x1810, 0x1946, 0x19d0, 0x1a80,
    0x1a90, 0x1b50, 0x1bb0, 0x1c40, 0x1c50, 0xa620, 0xa8d0, 0xa900, 0xa9d0, 0xa9f0, 0xaa50, 0xabf0,
    0xff10]

/-- `Character.digit`, in base ten -/
def digit (c : Char) : Option Nat :=
  decimalZeros.findSome? fun first =>
    if first ≤ c.toNat ∧ c.toNat < first + 10 then some (c.toNat - first) else none

def digits (value : Nat) : Text → Option Nat
  | [] => some value
  | c :: rest => (digit c).bind fun d => digits (10 * value + d) rest

def splitSign : Text → Bool × Text
  | [] => (false, [])
  | c :: rest =>
    if c = '-' then (true, rest)
    else if c = '+' then (false, rest)
    else (false, c :: rest)

/-- `Integer.parseInt` -/
def parseInt (text : Text) : Except String Int :=
  let (negative, unsigned) := splitSign text
  let invalid := .error ("For input string: \"" ++ String.ofList text ++ "\"")
  if unsigned = [] then invalid
  else
    match digits 0 unsigned with
    | none => invalid
    | some value =>
      if negative then if value ≤ 2147483648 then .ok (-(value : Int)) else invalid
      else if value < 2147483648 then .ok value else invalid

def values (request : Entries) (name : Text) : Except String (List Text) := do
  let count ← parseInt ((getProperty request (countName name)).getD "0".toList)
  if count < 0 then .error ("Illegal Capacity: " ++ toString count)
  else (List.range count.toNat).mapM fun index => required request (indexName name index)

structure WorkerRequest where
  protocolVersion : Text
  operation : Text
  fileName : Text
  source : Text
  release : Text
  cursor : Option Text
  classpath : List Text
  modulePath : List Text
  sourcePath : List Text
  processorPath : List Text
  compilerOptions : List Text
  processorOptions : List Text

/-- What `execute` reads. -/
def execute (request : Entries) : Except String WorkerRequest := do
  let protocolVersion ← required request "protocol.version".toList
  let operation ← required request "operation".toList
  let fileName ← required request "file.name".toList
  let source ← required request "source.base64".toList
  let release ← required request "release".toList
  let classpath ← values request "classpath".toList
  let modulePath ← values request "module.path".toList
  let sourcePath ← values request "source.path".toList
  let processorPath ← values request "processor.path".toList
  let compilerOptions ← values request "compiler.option".toList
  let processorOptions ← values request "processor.option".toList
  if operation = "analyze".toList then
    return ⟨protocolVersion, operation, fileName, source, release, none, classpath, modulePath,
      sourcePath, processorPath, compilerOptions, processorOptions⟩
  else if operation = "query".toList then
    let cursor ← required request "cursor".toList
    return ⟨protocolVersion, operation, fileName, source, release, some cursor, classpath, modulePath,
      sourcePath, processorPath, compilerOptions, processorOptions⟩
  else .error ("unsupported processed semantic operation " ++ String.ofList operation)

section Reader

variable (encode : Text → Text) (request : ProcessedSemanticRequest) (operation : Operation)

def asked : WorkerRequest where
  protocolVersion := numeral protocolVersion
  operation := operation.text
  fileName := request.fileName
  source := encode request.source
  release := numeral request.release.toNat
  cursor := operation.cursor.map fun cursor => numeral cursor.toNat
  classpath := request.classpath
  modulePath := request.modulePath
  sourcePath := request.sourcePath
  processorPath := request.processorPath
  compilerOptions := request.compilerOptions
  processorOptions := request.processorOptions

def RoundTrips : Prop :=
  ((load (toProperties encode request operation)).bind execute) = .ok (asked encode request operation)

end Reader

-- Numerals
-- ---

section Numerals

variable {n : Nat} {c : Char}

def asciiDigits : List Char := ['0', '1', '2', '3', '4', '5', '6', '7', '8', '9']

theorem mem_asciiDigits (h : c ∈ numeral n) : c ∈ asciiDigits := by
  have hdigit := Encoding.isDigit_of_mem_numeral h
  obtain ⟨hlow, hhigh⟩ := Char.isDigit_iff_toNat.mp hdigit
  have hlast : c.toNat ≤ 57 := hhigh
  have hall : ∀ k ∈ List.range' 48 10, Char.ofNat k ∈ asciiDigits := by decide
  have hmem := hall c.toNat (List.mem_range'_1.mpr ⟨hlow, by omega⟩)
  rwa [Char.ofNat_toNat] at hmem

theorem numeral_ne_nil (n : Nat) : numeral n ≠ [] := by
  rw [numeral, ← String.toList_ofList (l := []), Ne, String.toList_inj]
  exact Nat.repr_ne_empty

theorem digit_of_mem (h : c ∈ asciiDigits) : digit c = some (c.toNat - '0'.toNat) := by
  have hall : ∀ d ∈ asciiDigits, digit d = some (d.toNat - '0'.toNat) :=
    List.all_iff_forall_prop.mp (by decide)
  exact hall c h

theorem digits_eq (text : Text) (h : ∀ c ∈ text, c ∈ asciiDigits) (value : Nat) :
    digits value text = some (Nat.ofDigitChars 10 text value) := by
  induction text generalizing value with
  | nil => rfl
  | cons c text ih =>
    rw [digits, digit_of_mem (h c List.mem_cons_self), Option.bind_some,
      ih (fun d hd => h d (List.mem_cons_of_mem _ hd)), Nat.ofDigitChars_cons]

theorem digits_numeral (n : Nat) : digits 0 (numeral n) = some n := by
  rw [digits_eq (numeral n) fun c => mem_asciiDigits]
  have hlist : numeral n = Nat.toDigits 10 n := Nat.toList_repr
  rw [hlist, Nat.ofDigitChars_ten_toDigits]

theorem splitSign_numeral (n : Nat) : splitSign (numeral n) = (false, numeral n) := by
  obtain ⟨c, rest, hcons⟩ := List.exists_cons_of_ne_nil (numeral_ne_nil n)
  have hdigit : c ∈ asciiDigits := mem_asciiDigits (n := n) (hcons ▸ List.mem_cons_self)
  have hsigns : ∀ d ∈ asciiDigits, d ≠ '-' ∧ d ≠ '+' :=
    List.all_iff_forall_prop.mp (by decide)
  rw [hcons, splitSign, if_neg (hsigns c hdigit).1, if_neg (hsigns c hdigit).2]

theorem parseInt_numeral (h : n < 2147483648) : parseInt (numeral n) = .ok n := by
  rw [parseInt, splitSign_numeral]
  dsimp only
  rw [if_neg (numeral_ne_nil n), digits_numeral]
  dsimp only
  rw [if_neg Bool.false_ne_true, if_pos h]

theorem lt_of_parseInt {text : Text} {value : Int} (h : parseInt text = .ok value) :
    value < 2147483648 := by
  unfold parseInt at h
  dsimp only at h
  split at h
  · cases h
  · split at h
    · cases h
    · next parsed hparsed =>
      split at h
      · split at h
        · obtain rfl := Except.ok.inj h
          omega
        · cases h
      · split at h
        · obtain rfl := Except.ok.inj h
          omega
        · cases h

end Numerals

-- What is written
-- ---

section Escape

variable {value : Text}

theorem spells_escape (value : Text) : Spells (escape value) value := by
  induction value with
  | nil => exact .nil
  | cons c value ih =>
    rw [escape, List.flatMap_cons, escapeCharacter]
    split
    · next hspecial =>
      have hliteral : ∀ d ∈ ['\\', ':', '=', '#', '!'], JavaProperties.IsLiteral d :=
        List.all_iff_forall_prop.mp (by decide)
      exact .escaped (hliteral c hspecial) ih
    · next hplain => exact .plain (fun h => hplain (h ▸ List.mem_cons_self)) ih

theorem oneLine_escape (h : OneLine value) : OneLine (escape value) := by
  intro c hc
  obtain ⟨d, hd, hc⟩ := List.mem_flatMap.mp hc
  unfold escapeCharacter at hc
  split at hc
  · rcases List.mem_cons.mp hc with rfl | hc
    · rfl
    · exact List.mem_singleton.mp hc ▸ h d hd
  · exact List.mem_singleton.mp hc ▸ h d hd

theorem flush_escape (h : Flush value) : Flush (escape value) := by
  intro c hc
  cases value with
  | nil => cases hc
  | cons d value =>
    rw [escape, List.flatMap_cons, escapeCharacter] at hc
    split at hc
    · obtain rfl := Option.some.inj hc
      rfl
    · exact h c hc

end Escape

-- The entries of a request
-- ---

section Entries

variable (encode : Text → Text) (request : ProcessedSemanticRequest) (operation : Operation)

def lists : List (Text × List Text) :=
  [("classpath".toList, request.classpath), ("module.path".toList, request.modulePath),
    ("source.path".toList, request.sourcePath), ("processor.path".toList, request.processorPath),
    ("processor.option".toList, request.processorOptions),
    ("compiler.option".toList, request.compilerOptions)]

def listEntries (list : Text × List Text) : Entries :=
  (countName list.1, numeral list.2.length) ::
    list.2.zipIdx.map fun value => (indexName list.1 value.2, value.1)

def singleEntries : Entries :=
  [("protocol.version".toList, numeral protocolVersion), ("operation".toList, operation.text),
    ("file.name".toList, request.fileName), ("source.base64".toList, encode request.source),
    ("release".toList, numeral request.release.toNat)] ++
    (operation.cursor.map fun cursor => ("cursor".toList, numeral cursor.toNat)).toList

def entries : Entries := singleEntries encode request operation ++ (lists request).flatMap listEntries

theorem stringList_eq (name : Text) (values : List Text) : stringList name values =
    (listEntries (name, values)).flatMap fun entry => property entry.1 entry.2 := by
  rw [stringList, listEntries, List.flatMap_cons, List.flatMap_map]

theorem toProperties_eq : toProperties encode request operation =
    (entries encode request operation).flatMap fun entry => property entry.1 entry.2 := by
  rw [entries, singleEntries, toProperties]
  simp only [stringList_eq, lists, List.flatMap_append, List.flatMap_cons, List.flatMap_nil,
    List.append_nil, List.append_assoc]
  cases operation with
  | analyze => rfl
  | query cursor =>
    simp only [Operation.cursor, Option.map_some, Option.getD_some, Option.toList_some,
      List.flatMap_cons, List.flatMap_nil, List.append_nil]

def stem (name : Text) : Text := (name.reverse.dropWhile (· ≠ '.')).reverse

theorem stem_append (name : Text) {suffix : Text} (h : '.' ∉ suffix) :
    stem (name ++ '.' :: suffix) = name ++ ['.'] := by
  have hdrop : ∀ d ∈ suffix.reverse, (decide (d ≠ '.')) = true :=
    fun d hd => decide_eq_true fun heq => h (heq ▸ List.mem_reverse.mp hd)
  rw [stem, List.reverse_append, List.reverse_cons, List.append_assoc,
    List.dropWhile_append_of_pos hdrop, List.singleton_append, List.dropWhile_cons_of_neg (by decide),
    List.reverse_cons, List.reverse_reverse]

theorem dot_notMem_numeral (n : Nat) : '.' ∉ numeral n :=
  fun h => absurd (mem_asciiDigits h) (by decide)

theorem stem_of_mem_listEntries {list : Text × List Text} {name : Text}
    (h : name ∈ (listEntries list).map Prod.fst) : stem name = list.1 ++ ['.'] := by
  obtain ⟨entry, hentry, rfl⟩ := List.mem_map.mp h
  rcases List.mem_cons.mp hentry with rfl | hentry
  · exact stem_append _ (by decide)
  · obtain ⟨value, -, rfl⟩ := List.mem_map.mp hentry
    exact stem_append _ (dot_notMem_numeral _)

theorem nodup_listEntries (list : Text × List Text) : ((listEntries list).map Prod.fst).Nodup := by
  have hindices : (list.2.zipIdx.map fun value => indexName list.1 value.2).Nodup := by
    have hmap : (list.2.zipIdx.map fun value => indexName list.1 value.2) =
        (List.range' 0 list.2.length).map (indexName list.1) := by
      rw [← List.zipIdx_map_snd, List.map_map]
      rfl
    rw [hmap]
    refine List.Nodup.map (fun i j hij => ?_) List.nodup_range'
    have hnumeral := (List.cons.inj (List.append_cancel_left hij)).2
    exact Encoding.numeral_injective (String.toList_injective hnumeral)
  rw [listEntries, List.map_cons, List.map_map, List.nodup_cons]
  refine ⟨fun hmem => ?_, hindices⟩
  obtain ⟨value, -, hvalue⟩ := List.mem_map.mp hmem
  have hcount : numeral value.2 = "count".toList := (List.cons.inj (List.append_cancel_left hvalue)).2
  exact absurd (mem_asciiDigits (n := value.2) (c := 'c') (hcount ▸ by decide)) (by decide)

def singleNames : List Text :=
  ["protocol.version".toList, "operation".toList, "file.name".toList, "source.base64".toList,
    "release".toList, "cursor".toList]

def listNames : List Text :=
  ["classpath".toList, "module.path".toList, "source.path".toList, "processor.path".toList,
    "processor.option".toList, "compiler.option".toList]

theorem singleEntries_sublist :
    List.Sublist ((singleEntries encode request operation).map Prod.fst) singleNames := by
  cases operation with
  | analyze => exact List.sublist_append_left _ ["cursor".toList]
  | query cursor => exact List.Sublist.refl _

theorem map_fst_lists : (lists request).map Prod.fst = listNames := rfl

theorem nodup_entries : ((entries encode request operation).map Prod.fst).Nodup := by
  have hsingle := singleEntries_sublist encode request operation
  rw [entries, List.map_append, List.map_flatMap, List.nodup_append]
  refine ⟨hsingle.nodup (by decide), List.nodup_flatMap.mpr ⟨fun list _ => nodup_listEntries list, ?_⟩,
    ?_⟩
  · have hnames : (lists request).Pairwise fun left right => left.1 ≠ right.1 :=
      List.pairwise_map.mp (map_fst_lists request ▸ (by decide : listNames.Nodup))
    refine hnames.imp fun hne name hleft hright => ?_
    exact hne (List.append_cancel_right
      ((stem_of_mem_listEntries hleft).symm.trans (stem_of_mem_listEntries hright)))
  · rintro name hname other hother rfl
    obtain ⟨list, hlist, hlisted⟩ := List.mem_flatMap.mp hother
    have hstems : ∀ name ∈ singleNames, ∀ listName ∈ listNames, stem name ≠ listName ++ ['.'] := by
      decide
    exact hstems name (hsingle.subset hname) list.1
      (map_fst_lists request ▸ List.mem_map_of_mem hlist) (stem_of_mem_listEntries hlisted)

end Entries

-- What is read
-- ---

section Read

variable {request : Entries} {name value : Text} {xs : List Text}

theorem required_eq_ok : required request name = .ok value ↔
    getProperty request name = some value ∧ isBlank value = false := by
  unfold required
  split
  · next hnone =>
    rw [hnone]
    constructor
    · intro h
      cases h
    · intro h
      cases h.1
  · next found hfound =>
    rw [hfound]
    split
    · next hblank =>
      constructor
      · intro h
        cases h
      · intro h
        obtain ⟨rfl, hfilled⟩ := And.imp_left Option.some.inj h
        exact absurd (hblank.symm.trans hfilled).symm Bool.false_ne_true
    · next hfilled =>
      rw [Bool.not_eq_true] at hfilled
      constructor
      · intro h
        obtain rfl := Except.ok.inj h
        exact ⟨rfl, hfilled⟩
      · rintro ⟨h, -⟩
        rw [Option.some.inj h]

theorem of_values (h : values request name = .ok xs) :
    xs.length < 2147483648 ∧ ∀ x ∈ xs, ∃ key, required request key = .ok x := by
  obtain ⟨count, hcount, h⟩ := Fallible.bind_eq_ok.mp h
  have hbound := lt_of_parseInt hcount
  split at h
  · cases h
  · have hlength := (Fallible.mapM_eq_ok.mp h).length_eq
    rw [List.length_range] at hlength
    refine ⟨by omega, fun x hx => ?_⟩
    obtain ⟨index, -, hindex⟩ := Fallible.exists_of_mem_mapM h hx
    exact ⟨_, hindex⟩

theorem values_of_entries (hcount : getProperty request (countName name) = some (numeral xs.length))
    (hlength : xs.length < 2147483648)
    (hvalues : ∀ value ∈ xs.zipIdx, required request (indexName name value.2) = .ok value.1) :
    values request name = .ok xs := by
  rw [values, hcount, Option.getD_some]
  refine Fallible.bind_eq_ok.mpr ⟨_, parseInt_numeral hlength, ?_⟩
  rw [if_neg (by omega), Int.toNat_natCast, Fallible.mapM_eq_ok, List.forall₂_iff_get]
  refine ⟨List.length_range, fun i hi hxs => ?_⟩
  rw [List.get_eq_getElem, List.get_eq_getElem, List.getElem_range]
  exact hvalues (xs[i], i) (List.mk_mem_zipIdx_iff_getElem?.mpr (List.getElem?_eq_getElem hxs))

theorem of_execute {worker : WorkerRequest} (h : execute request = .ok worker) :
    required request "file.name".toList = .ok worker.fileName ∧
      required request "source.base64".toList = .ok worker.source ∧
      values request "classpath".toList = .ok worker.classpath ∧
      values request "module.path".toList = .ok worker.modulePath ∧
      values request "source.path".toList = .ok worker.sourcePath ∧
      values request "processor.path".toList = .ok worker.processorPath ∧
      values request "compiler.option".toList = .ok worker.compilerOptions ∧
      values request "processor.option".toList = .ok worker.processorOptions := by
  unfold execute at h
  obtain ⟨protocolVersion, -, h⟩ := Fallible.bind_eq_ok.mp h
  obtain ⟨operation, -, h⟩ := Fallible.bind_eq_ok.mp h
  obtain ⟨fileName, hfileName, h⟩ := Fallible.bind_eq_ok.mp h
  obtain ⟨source, hsource, h⟩ := Fallible.bind_eq_ok.mp h
  obtain ⟨release, -, h⟩ := Fallible.bind_eq_ok.mp h
  obtain ⟨classpath, hclasspath, h⟩ := Fallible.bind_eq_ok.mp h
  obtain ⟨modulePath, hmodulePath, h⟩ := Fallible.bind_eq_ok.mp h
  obtain ⟨sourcePath, hsourcePath, h⟩ := Fallible.bind_eq_ok.mp h
  obtain ⟨processorPath, hprocessorPath, h⟩ := Fallible.bind_eq_ok.mp h
  obtain ⟨compilerOptions, hcompilerOptions, h⟩ := Fallible.bind_eq_ok.mp h
  obtain ⟨processorOptions, hprocessorOptions, h⟩ := Fallible.bind_eq_ok.mp h
  split at h
  · obtain rfl := Except.ok.inj h
    exact ⟨hfileName, hsource, hclasspath, hmodulePath, hsourcePath, hprocessorPath, hcompilerOptions,
      hprocessorOptions⟩
  · split at h
    · obtain ⟨cursor, -, h⟩ := Fallible.bind_eq_ok.mp h
      obtain rfl := Except.ok.inj h
      exact ⟨hfileName, hsource, hclasspath, hmodulePath, hsourcePath, hprocessorPath,
        hcompilerOptions, hprocessorOptions⟩
    · cases h

end Read

-- The round trip
-- ---

/-- What is assumed of the base64 encoder: its alphabet, and that it does not lose a text. -/
structure Encoder (encode : Text → Text) : Prop where
  alphabet : ∀ source, ∀ c ∈ encode source,
    c ∈ "ABCDEFGHIJKLMNOPQRSTUVWXYZabcdefghijklmnopqrstuvwxyz0123456789+/=".toList
  filled : ∀ source, encode source = [] ↔ source = []

/-- The strings of a request, but for its source. -/
def texts (request : ProcessedSemanticRequest) : List Text :=
  request.fileName :: (lists request).flatMap Prod.snd

/-- The request survives its way: no string has a line end or a blank in front, no list is
longer than an `int`, and there is a source. -/
structure Survives (request : ProcessedSemanticRequest) : Prop where
  texts : ∀ text ∈ texts request, OneLine text ∧ Flush text
  lists : ∀ list ∈ lists request, list.2.length < 2147483648
  source : request.source ≠ []

section RoundTrip

variable {encode : Text → Text} {request : ProcessedSemanticRequest} {operation : Operation}

/-- Characters that no name and no numeral has. -/
def IsPlain (c : Char) : Prop :=
  c ∉ ['\\', '=', ':', '#', '!'] ∧ JavaProperties.isBlank c = false ∧ JavaProperties.isEol c = false

instance (c : Char) : Decidable (IsPlain c) := inferInstanceAs (Decidable (_ ∧ _))

theorem isPlain_of_mem_numeral {n : Nat} : ∀ c ∈ numeral n, IsPlain c := by
  have hdigits : ∀ c ∈ asciiDigits, IsPlain c := List.all_iff_forall_prop.mp (by decide)
  exact fun c hc => hdigits c (mem_asciiDigits hc)

theorem named_append {listName suffix : Text} (hlist : listName ∈ listNames)
    (hsuffix : ∀ c ∈ suffix, IsPlain c) : Named (listName ++ '.' :: suffix) := by
  have hnames : ∀ listName ∈ listNames, listName.all (IsPlain ·) = true := by decide
  refine ⟨List.append_ne_nil_of_right_ne_nil _ (List.cons_ne_nil _ _), fun c hc => ?_⟩
  rcases List.mem_append.mp hc with hc | hc
  · exact List.all_iff_forall_prop.mp (hnames listName hlist) c hc
  · rcases List.mem_cons.mp hc with rfl | hc
    · exact (by decide : IsPlain '.')
    · exact hsuffix c hc

theorem named_of_mem_entries {entry : Text × Text} (h : entry ∈ entries encode request operation) :
    Named entry.1 := by
  rcases List.mem_append.mp h with h | h
  · have hsingle : ∀ name ∈ singleNames, name ≠ [] ∧ name.all (IsPlain ·) = true := by decide
    obtain ⟨hfilled, hplain⟩ := hsingle entry.1
      ((singleEntries_sublist encode request operation).subset (List.mem_map_of_mem h))
    exact ⟨hfilled, List.all_iff_forall_prop.mp hplain⟩
  · obtain ⟨list, hlist, h⟩ := List.mem_flatMap.mp h
    have hname : list.1 ∈ listNames := map_fst_lists request ▸ List.mem_map_of_mem hlist
    rcases List.mem_cons.mp h with rfl | h
    · exact named_append hname (List.all_iff_forall_prop.mp (by decide))
    · obtain ⟨value, -, rfl⟩ := List.mem_map.mp h
      exact named_append hname isPlain_of_mem_numeral

theorem spells_toProperties (encode : Text → Text) (request : ProcessedSemanticRequest)
    (operation : Operation) : ∃ value, Spells (toProperties encode request operation) value := by
  rw [toProperties_eq]
  have hnamed := fun entry => @named_of_mem_entries encode request operation entry
  revert hnamed
  generalize entries encode request operation = written
  intro hnamed
  induction written with
  | nil => exact ⟨[], .nil⟩
  | cons first written ih =>
    obtain ⟨value, hvalue⟩ := ih fun entry hentry => hnamed entry (List.mem_cons_of_mem _ hentry)
    have hfirst : Spells (property first.1 first.2) (first.1 ++ '=' :: first.2 ++ ['\n']) :=
      ((hnamed first List.mem_cons_self).spells.append (.plain (by decide) (spells_escape first.2))).append
        (.plain (by decide) .nil)
    exact ⟨_, hfirst.append hvalue⟩

theorem transparent_of_values {read : Entries} (hread : ∀ entry ∈ read, OneLine entry.2 ∧ Flush entry.2)
    {name : Text} {xs : List Text} (h : values read name = .ok xs) :
    xs.length < 2147483648 ∧ ∀ x ∈ xs, OneLine x ∧ Flush x := by
  obtain ⟨hlength, hvalues⟩ := of_values h
  refine ⟨hlength, fun x hx => ?_⟩
  obtain ⟨key, hkey⟩ := hvalues x hx
  exact hread _ (JavaProperties.mem_of_getProperty (required_eq_ok.mp hkey).1)

theorem survives_of_roundTrips (hencode : Encoder encode) (h : RoundTrips encode request operation) :
    Survives request := by
  obtain ⟨value, hspells⟩ := spells_toProperties encode request operation
  obtain ⟨read, hload, hread⟩ := JavaProperties.load_of_spells hspells
  rw [RoundTrips, hload] at h
  obtain ⟨hfileName, hsource, hclasspath, hmodulePath, hsourcePath, hprocessorPath, hcompilerOptions,
    hprocessorOptions⟩ := of_execute h
  have hlists : ∀ list ∈ lists request, values read list.1 = .ok list.2 := by
    simp only [lists, List.forall_mem_cons, List.not_mem_nil, false_implies, implies_true, and_true]
    exact ⟨hclasspath, hmodulePath, hsourcePath, hprocessorPath, hprocessorOptions, hcompilerOptions⟩
  constructor
  · intro text htext
    rcases List.mem_cons.mp htext with rfl | htext
    · exact hread _ (JavaProperties.mem_of_getProperty (required_eq_ok.mp hfileName).1)
    · obtain ⟨list, hlist, htext⟩ := List.mem_flatMap.mp htext
      exact (transparent_of_values hread (hlists list hlist)).2 text htext
  · exact fun list hlist => (transparent_of_values hread (hlists list hlist)).1
  · intro hempty
    have hblank : isBlank (encode request.source) = false := (required_eq_ok.mp hsource).2
    rw [(hencode.filled request.source).mpr hempty] at hblank
    cases hblank

theorem isBlank_of_forall {value : Text} (hfilled : value ≠ [])
    (h : ∀ c ∈ value, isWhitespace c = false) : isBlank value = false := by
  obtain ⟨c, rest, rfl⟩ := List.exists_cons_of_ne_nil hfilled
  rw [isBlank, List.all_cons, h c List.mem_cons_self, Bool.false_and]

theorem isBlank_numeral (n : Nat) : isBlank (numeral n) = false := by
  have hdigits : ∀ c ∈ asciiDigits, isWhitespace c = false := List.all_iff_forall_prop.mp (by decide)
  exact isBlank_of_forall (numeral_ne_nil n) fun c hc => hdigits c (mem_asciiDigits hc)

theorem transparent_of_plain {value : Text} (h : ∀ c ∈ value, JavaProperties.isBlank c = false ∧
    JavaProperties.isEol c = false) : OneLine value ∧ Flush value :=
  ⟨fun c hc => (h c hc).2, fun c hc => (h c (List.mem_of_mem_head? hc)).1⟩

theorem transparent_numeral (n : Nat) : OneLine (numeral n) ∧ Flush (numeral n) :=
  transparent_of_plain fun c hc => (isPlain_of_mem_numeral c hc).2

theorem Encoder.plain (hencode : Encoder encode) (source : Text) : ∀ c ∈ encode source,
    isWhitespace c = false ∧ JavaProperties.isBlank c = false ∧ JavaProperties.isEol c = false := by
  have halphabet : ∀ c ∈
      "ABCDEFGHIJKLMNOPQRSTUVWXYZabcdefghijklmnopqrstuvwxyz0123456789+/=".toList,
      isWhitespace c = false ∧ JavaProperties.isBlank c = false ∧ JavaProperties.isEol c = false :=
    List.all_iff_forall_prop.mp (by decide)
  exact fun c hc => halphabet c (hencode.alphabet source c hc)

theorem transparent_of_mem_entries (hencode : Encoder encode) (h : Survives request)
    {entry : Text × Text} (hentry : entry ∈ entries encode request operation) :
    OneLine entry.2 ∧ Flush entry.2 := by
  rcases List.mem_append.mp hentry with hsingle | hlisted
  · rcases List.mem_append.mp hsingle with hsingle | hcursor
    · have hoperation : OneLine operation.text ∧ Flush operation.text := by
        cases operation with
        | analyze => exact transparent_of_plain (List.all_iff_forall_prop.mp (by decide))
        | query cursor =>
          have hplain : ∀ c ∈ "query".toList, JavaProperties.isBlank c = false ∧
              JavaProperties.isEol c = false :=
            List.all_iff_forall_prop.mp (by decide)
          exact transparent_of_plain hplain
      have hall : ∀ single ∈ [("protocol.version".toList, numeral protocolVersion),
          ("operation".toList, operation.text), ("file.name".toList, request.fileName),
          ("source.base64".toList, encode request.source),
          ("release".toList, numeral request.release.toNat)], OneLine single.2 ∧ Flush single.2 := by
        simp only [List.forall_mem_cons, List.not_mem_nil, false_implies, implies_true, and_true]
        exact ⟨transparent_numeral _, hoperation, h.texts _ List.mem_cons_self,
          transparent_of_plain fun c hc => (hencode.plain _ c hc).2, transparent_numeral _⟩
      exact hall entry hsingle
    · obtain ⟨cursor, -, rfl⟩ := Option.map_eq_some_iff.mp (Option.mem_toList.mp hcursor)
      exact transparent_numeral _
  · obtain ⟨list, hlist, hlisted⟩ := List.mem_flatMap.mp hlisted
    rcases List.mem_cons.mp hlisted with rfl | hlisted
    · exact transparent_numeral _
    · obtain ⟨value, hvalue, rfl⟩ := List.mem_map.mp hlisted
      exact h.texts _ (List.mem_cons_of_mem _ (List.mem_flatMap.mpr ⟨list, hlist,
        List.fst_mem_of_mem_zipIdx hvalue⟩))

theorem load_toProperties (hencode : Encoder encode) (h : Survives request) :
    load (toProperties encode request operation) = .ok (entries encode request operation) := by
  rw [toProperties_eq]
  refine JavaProperties.load_entries fun entry hentry => ?_
  obtain ⟨honeLine, hflush⟩ := transparent_of_mem_entries hencode h hentry
  exact ⟨named_of_mem_entries hentry, spells_escape entry.2, oneLine_escape honeLine, flush_escape hflush⟩

theorem required_of_mem {name value : Text} (h : (name, value) ∈ entries encode request operation)
    (hfilled : isBlank value = false) : required (entries encode request operation) name = .ok value :=
  required_eq_ok.mpr ⟨JavaProperties.getProperty_of_mem (nodup_entries encode request operation) h, hfilled⟩

theorem values_of_mem (h : Survives request) (hfilled : ∀ text ∈ texts request, isBlank text = false)
    {list : Text × List Text} (hlist : list ∈ lists request) :
    values (entries encode request operation) list.1 = .ok list.2 := by
  have hlisted : ∀ entry ∈ listEntries list, entry ∈ entries encode request operation :=
    fun entry hentry => List.mem_append_right _ (List.mem_flatMap.mpr ⟨list, hlist, hentry⟩)
  refine values_of_entries (JavaProperties.getProperty_of_mem (nodup_entries encode request operation)
    (hlisted _ List.mem_cons_self)) (h.lists list hlist) fun value hvalue => ?_
  refine required_of_mem (hlisted _ (List.mem_cons_of_mem _ (List.mem_map_of_mem hvalue))) ?_
  exact hfilled _ (List.mem_cons_of_mem _ (List.mem_flatMap.mpr ⟨list, hlist,
    List.fst_mem_of_mem_zipIdx hvalue⟩))

theorem execute_entries (hencode : Encoder encode) (h : Survives request)
    (hfilled : ∀ text ∈ texts request, isBlank text = false) :
    execute (entries encode request operation) = .ok (asked encode request operation) := by
  have hsingle : ∀ entry ∈ singleEntries encode request operation,
      entry ∈ entries encode request operation := fun entry hentry => List.mem_append_left _ hentry
  have hlist : ∀ list ∈ lists request, values (entries encode request operation) list.1 = .ok list.2 :=
    fun list hlist => values_of_mem h hfilled hlist
  simp only [lists, List.forall_mem_cons, List.not_mem_nil, false_implies, implies_true, and_true] at hlist
  obtain ⟨hclasspath, hmodulePath, hsourcePath, hprocessorPath, hprocessorOptions, hcompilerOptions⟩ :=
    hlist
  have hsource : isBlank (encode request.source) = false :=
    isBlank_of_forall (fun hempty => h.source ((hencode.filled _).mp hempty))
      fun c hc => (hencode.plain _ c hc).1
  have hoperation : isBlank operation.text = false := by
    cases operation with
    | analyze => rfl
    | query cursor => rfl
  simp only [singleEntries, List.cons_append, List.nil_append, List.forall_mem_cons] at hsingle
  obtain ⟨hprotocolEntry, hoperationEntry, hfileEntry, hsourceEntry, hreleaseEntry, hcursorEntry⟩ := hsingle
  rw [execute]
  refine Fallible.bind_eq_ok.mpr ⟨_, required_of_mem hprotocolEntry (isBlank_numeral _), ?_⟩
  refine Fallible.bind_eq_ok.mpr ⟨_, required_of_mem hoperationEntry hoperation, ?_⟩
  refine Fallible.bind_eq_ok.mpr ⟨_, required_of_mem hfileEntry (hfilled _ List.mem_cons_self), ?_⟩
  refine Fallible.bind_eq_ok.mpr ⟨_, required_of_mem hsourceEntry hsource, ?_⟩
  refine Fallible.bind_eq_ok.mpr ⟨_, required_of_mem hreleaseEntry (isBlank_numeral _), ?_⟩
  refine Fallible.bind_eq_ok.mpr ⟨_, hclasspath, ?_⟩
  refine Fallible.bind_eq_ok.mpr ⟨_, hmodulePath, ?_⟩
  refine Fallible.bind_eq_ok.mpr ⟨_, hsourcePath, ?_⟩
  refine Fallible.bind_eq_ok.mpr ⟨_, hprocessorPath, ?_⟩
  refine Fallible.bind_eq_ok.mpr ⟨_, hcompilerOptions, ?_⟩
  refine Fallible.bind_eq_ok.mpr ⟨_, hprocessorOptions, ?_⟩
  cases operation with
  | analyze =>
    have htext : Operation.analyze.text = "analyze".toList := rfl
    rw [if_pos htext]
    rfl
  | query cursor =>
    have htext : (Operation.query cursor).text = "query".toList := rfl
    rw [htext, if_neg (by decide), if_pos rfl]
    exact Fallible.bind_eq_ok.mpr ⟨_, required_of_mem (hcursorEntry _ (List.mem_singleton.mpr rfl))
      (isBlank_numeral _), rfl⟩

end RoundTrip

/-- **A request of strings that are not blank is read as it was written exactly when it
survives.** -/
theorem request_round_trips_iff (encode : Text → Text) (hencode : Encoder encode)
    (request : ProcessedSemanticRequest) (operation : Operation)
    (hfilled : ∀ text ∈ texts request, isBlank text = false) :
    RoundTrips encode request operation ↔ Survives request := by
  constructor
  · exact survives_of_roundTrips hencode
  · intro h
    rw [RoundTrips, load_toProperties hencode h]
    exact execute_entries hencode h hfilled

def encodedClass (source : Text) : Text :=
  if source = [] then []
  else if source = "class A \x7b\x7d".toList then "Y2xhc3MgQSB7fQ==".toList
  else ['A', 'A', '=', '=']

theorem encoder_encodedClass : Encoder encodedClass := by
  constructor
  · intro source c hc
    unfold encodedClass at hc
    split at hc
    · cases hc
    · split at hc
      · revert c
        exact List.all_iff_forall_prop.mp (by decide)
      · revert c
        exact List.all_iff_forall_prop.mp (by decide)
  · intro source
    unfold encodedClass
    split
    · next hempty => exact iff_of_true rfl hempty
    · next hfilled =>
      split
      · exact iff_of_false (by decide) hfilled
      · exact iff_of_false (by decide) hfilled

def requestWith (option : Text) : ProcessedSemanticRequest where
  fileName := "A.java".toList
  source := "class A \x7b\x7d".toList
  release := 21
  classpath := ["/work/classes".toList]
  modulePath := []
  sourcePath := []
  processorPath := []
  processorOptions := [option]
  compilerOptions := []

theorem escaped_option_round_trips :
    RoundTrips encodedClass (requestWith "-Akey=a b\\u0041".toList) .analyze := by
  have htexts : ∀ text ∈ texts (requestWith "-Akey=a b\\u0041".toList),
      text.all (JavaProperties.isEol · = false) = true ∧
        text.head?.all (JavaProperties.isBlank · = false) = true := by decide
  refine (request_round_trips_iff encodedClass encoder_encodedClass _ .analyze (by decide)).mpr
    ⟨fun text htext => ⟨List.all_iff_forall_prop.mp (htexts text htext).1, fun c hc => ?_⟩, by decide,
      by decide⟩
  have hhead := (htexts text htext).2
  rwa [hc, Option.all_some, decide_eq_true_eq] at hhead

theorem indented_option_is_read_otherwise : ¬ ∀ (encode : Text → Text), Encoder encode →
    ∀ (request : ProcessedSemanticRequest) (operation : Operation),
      (∀ text ∈ texts request, isBlank text = false) → RoundTrips encode request operation := by
  intro h
  have hsurvives := survives_of_roundTrips encoder_encodedClass
    (h encodedClass encoder_encodedClass (requestWith " -Akey=a".toList) .analyze (by decide))
  have hflush := (hsurvives.texts " -Akey=a".toList (by decide)).2 ' ' rfl
  exact absurd hflush (by decide)

end JMan.Lsp.ProcessedSemantics
