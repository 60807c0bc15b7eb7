import JMan.Lib.Encoding
import JMan.Lib.OsText
import JMan.Lsp.Server

/-!
# JMan — URIs of files

`file_uri_to_path` and `percent_decode` of `project.rs`, and the URIs the server makes of
paths, which it does not encode. What is known of a document is kept under its URI as it
is written.

* `uri_round_trip_iff` — the round trips hold exactly for the URIs in which nothing is encoded.
-/

namespace JMan.Lsp

open JMan.Config
open Encoding (Bytes utf8)

-- URIs and paths
-- ---

def hexDigit? (byte : UInt8) : Option Nat :=
  let n := byte.toNat
  if 48 ≤ n ∧ n ≤ 57 then some (n - 48)
  else if 65 ≤ n ∧ n ≤ 70 then some (n - 55)
  else if 97 ≤ n ∧ n ≤ 102 then some (n - 87)
  else none

/-- `u8::from_str_radix(encoded, 16)` of two bytes, the first of which may be a plus sign -/
def hexByte? (high low : UInt8) : Option UInt8 :=
  if high = 43 then (hexDigit? low).map UInt8.ofNat
  else (hexDigit? high).bind fun high => (hexDigit? low).map fun low => UInt8.ofNat (high * 16 + low)

/-- The loop of `percent_decode`. -/
def decodeBytes : Bytes → Option Bytes
  | [] => some []
  | byte :: rest =>
    if byte = 37 then
      match rest with
      | high :: low :: rest =>
        (hexByte? high low).bind fun byte => (decodeBytes rest).map fun decoded => byte :: decoded
      | _ => none
    else (decodeBytes rest).map fun decoded => byte :: decoded

def percentDecode (value : String) : Option String :=
  (decodeBytes (utf8 value)).bind fun decoded => String.fromUTF8? ⟨decoded.toArray⟩

/-- `str::strip_prefix` -/
def stripPrefix? (front text : String) : Option String :=
  if front.toList <+: text.toList then some (String.ofList (text.toList.drop front.length)) else none

def fileUriToPath (uri : String) : Option String := (stripPrefix? "file://" uri).bind percentDecode

/-- `format!("file://\x7b\x7d", path.display())` -/
def serverUri (path : String) : String := "file://" ++ path

/-- `index_workspace`, of sources with their paths -/
def indexedWorkspace (answers : Answers) (sources : List (String × Text)) : Server :=
  Server.new.indexWorkspace answers
    ⟨1, [], false, sources.map fun source => (serverUri source.1, source.2)⟩

-- URIs of a client
-- ---

/-- Bytes as they may stand in a URI: a byte that is not a percent sign as it is, and any
byte by its two hexadecimal digits. -/
inductive Spells : Bytes → Bytes → Prop where
  | nil : Spells [] []
  | plain {byte : UInt8} {path uri : Bytes} (hbyte : byte ≠ 37) (hrest : Spells path uri) :
      Spells (byte :: path) (byte :: uri)
  | encoded {byte high low : UInt8} {path uri : Bytes} {first second : Nat}
      (hhigh : hexDigit? high = some first) (hlow : hexDigit? low = some second)
      (hbyte : byte = UInt8.ofNat (first * 16 + second)) (hrest : Spells path uri) :
      Spells (byte :: path) (37 :: high :: low :: uri)

def ClientUri (path uri : String) : Prop := ∃ spelling, uri = "file://" ++ spelling ∧ Spells (utf8 path) (utf8 spelling)

/-- The index knows the same under two URIs, whatever has been indexed. -/
def KnownAs (uri other : String) : Prop :=
  ∀ answers sources,
    (indexedWorkspace answers sources).indexedSources[uri]? =
      (indexedWorkspace answers sources).indexedSources[other]? ∧
    (indexedWorkspace answers sources).analyses[uri]? = (indexedWorkspace answers sources).analyses[other]? ∧
    (indexedWorkspace answers sources).project.containsDocument uri =
      (indexedWorkspace answers sources).project.containsDocument other

/-- The URI of the server is read as the path, and what the client sends stands for the
same document. -/
def RoundTrips (path uri : String) : Prop :=
  fileUriToPath (serverUri path) = some path ∧ KnownAs uri (serverUri path)

-- Decoding
-- ---

section Decoding

variable {bytes decoded path uri : Bytes}

theorem decodeBytes_plain {byte : UInt8} (hbyte : byte ≠ 37) :
    ∀ rest : Bytes, decodeBytes (byte :: rest) = (decodeBytes rest).map fun decoded => byte :: decoded
  | [] => by simp [decodeBytes, hbyte]
  | [_] => by simp [decodeBytes, hbyte]
  | _ :: _ :: _ => by simp [decodeBytes, hbyte]

theorem length_decodeBytes : ∀ (bytes decoded : Bytes), decodeBytes bytes = some decoded →
    decoded.length ≤ bytes.length ∧ (37 ∈ bytes → decoded.length < bytes.length)
  | [], decoded, h => by
    cases h
    exact ⟨Nat.le_refl _, fun hmem => absurd hmem List.not_mem_nil⟩
  | byte :: rest, decoded, h => by
    by_cases hbyte : byte = 37
    · subst hbyte
      match rest, h with
      | [], h => cases h
      | [_], h => cases h
      | high :: low :: rest, h =>
        rw [decodeBytes, if_pos rfl] at h
        obtain ⟨value, -, hvalue⟩ := Option.bind_eq_some_iff.mp h
        obtain ⟨more, hmore, rfl⟩ := Option.map_eq_some_iff.mp hvalue
        have hrest := (length_decodeBytes rest more hmore).1
        simp only [List.length_cons]
        exact ⟨by omega, fun _ => by omega⟩
    · rw [decodeBytes_plain hbyte] at h
      obtain ⟨more, hmore, rfl⟩ := Option.map_eq_some_iff.mp h
      obtain ⟨hle, hlt⟩ := length_decodeBytes rest more hmore
      simp only [List.length_cons]
      refine ⟨by omega, fun hmem => ?_⟩
      have hshorter := hlt ((List.mem_cons.mp hmem).resolve_left fun heq => hbyte heq.symm)
      omega

theorem decodeBytes_of_not_mem (h : 37 ∉ bytes) : decodeBytes bytes = some bytes := by
  induction bytes with
  | nil => rfl
  | cons byte rest ih =>
    have hbyte : byte ≠ 37 := fun heq => h (heq ▸ List.mem_cons_self)
    rw [decodeBytes_plain hbyte, ih fun hmem => h (List.mem_cons_of_mem _ hmem)]
    rfl

theorem Spells.eq_of_not_mem (h : Spells path uri) (hnone : 37 ∉ uri) : uri = path := by
  induction h with
  | nil => rfl
  | plain _ _ ih => rw [ih fun hmem => hnone (List.mem_cons_of_mem _ hmem)]
  | encoded _ _ _ _ _ => exact absurd List.mem_cons_self hnone

theorem percent_mem_utf8 (text : String) : 37 ∈ utf8 text ↔ '%' ∈ text.toList :=
  OsText.ascii_mem_toUTF8 (by decide) text

/-- **A path is read back exactly where it has no percent sign.** -/
theorem percentDecode_eq_self (path : String) : percentDecode path = some path ↔ '%' ∉ path.toList := by
  rw [← percent_mem_utf8]
  constructor
  · intro h hmem
    obtain ⟨decoded, hdecoded, htext⟩ := Option.bind_eq_some_iff.mp h
    have hshorter := (length_decodeBytes _ _ hdecoded).2 hmem
    rw [Encoding.eq_utf8_of_fromUTF8? htext] at hshorter
    exact Nat.lt_irrefl _ hshorter
  · intro hnone
    rw [percentDecode, decodeBytes_of_not_mem hnone, Option.bind_some, Encoding.fromUTF8?_utf8]

theorem fileUriToPath_serverUri (path : String) : fileUriToPath (serverUri path) = percentDecode path := by
  have hstrip : stripPrefix? "file://" (serverUri path) = some path := by
    unfold stripPrefix? serverUri
    have hlength : "file://".toList.length = "file://".length := rfl
    rw [String.toList_append, if_pos (List.prefix_append _ _), ← hlength, List.drop_left, String.ofList_toList]
  rw [fileUriToPath, hstrip, Option.bind_some]

end Decoding

-- The index
-- ---

section Index

variable {path uri other : String}

/-- **Two URIs stand for one document of the index exactly where they are spelled alike,**
if one of them is a URI of the server. -/
theorem knownAs_iff : KnownAs uri (serverUri path) ↔ uri = serverUri path := by
  constructor
  · intro h
    by_contra hne
    -- where only this file has been indexed, nothing is known under the other URI
    obtain ⟨hsource, -⟩ := h (fun _ _ => none) [(path, [])]
    have hindexed : (indexedWorkspace (fun _ _ => none) [(path, [])]).indexedSources =
        (∅ : BTreeMap Text).insert (serverUri path) [] := rfl
    rw [hindexed, Server.getElem?_insert_of_ne _ _ hne, Std.ExtTreeMap.getElem?_insert_self] at hsource
    simp at hsource
  · rintro rfl answers sources
    exact ⟨rfl, rfl, rfl⟩

/-- **A URI makes the round trip exactly where nothing is encoded in it.** -/
theorem uri_round_trip_iff (h : ClientUri path uri) : RoundTrips path uri ↔ '%' ∉ uri.toList := by
  obtain ⟨spelling, rfl, hspells⟩ := h
  have hfront : '%' ∉ "file://".toList := by decide
  have hsigns : '%' ∉ ("file://" ++ spelling).toList ↔ '%' ∉ spelling.toList := by
    rw [String.toList_append, List.mem_append, not_or]
    exact and_iff_right hfront
  rw [hsigns, RoundTrips, knownAs_iff, fileUriToPath_serverUri, percentDecode_eq_self]
  constructor
  · rintro ⟨hpath, heq⟩
    rwa [(String.append_right_inj _).mp heq]
  · intro hnone
    have hsame : spelling = path := by
      refine Encoding.utf8_injective (hspells.eq_of_not_mem ?_)
      rwa [percent_mem_utf8]
    rw [hsame] at hnone ⊢
    exact ⟨hnone, rfl⟩

theorem spells_self {bytes : Bytes} (h : 37 ∉ bytes) : Spells bytes bytes := by
  induction bytes with
  | nil => exact .nil
  | cons byte rest ih =>
    exact .plain (fun heq => h (heq ▸ List.mem_cons_self)) (ih fun hmem => h (List.mem_cons_of_mem _ hmem))

theorem uri_round_trip_plain : RoundTrips "/Demo.java" "file:///Demo.java" :=
  (uri_round_trip_iff ⟨"/Demo.java", by decide, spells_self (by decide)⟩).mpr (by decide)

/-- A client encodes the blank of a path; and the server reads another path from its own
URI of a path with a percent sign. -/
theorem encoded_uri_is_another_document :
    ClientUri "/a b" "file:///a%20b" ∧ ¬ KnownAs "file:///a%20b" (serverUri "/a b") ∧
      fileUriToPath (serverUri "/a%41") = some "/aA" := by
  refine ⟨⟨"/a%20b", by decide, ?_⟩, fun h => absurd (knownAs_iff.mp h) (by decide), ?_⟩
  · have hpath : utf8 "/a b" = [47, 97, 32, 98] := by decide
    have huri : utf8 "/a%20b" = [47, 97, 37, 50, 48, 98] := by decide
    have hhigh : hexDigit? 50 = some 2 := by decide
    have hlow : hexDigit? 48 = some 0 := by decide
    have hbyte : (32 : UInt8) = UInt8.ofNat (2 * 16 + 0) := by decide
    have hblank : Spells [32, 98] [37, 50, 48, 98] := .encoded hhigh hlow hbyte (spells_self (by decide))
    rw [hpath, huri]
    exact .plain (by decide) (.plain (by decide) hblank)
  · have hdecoded : decodeBytes (utf8 "/a%41") = some (utf8 "/aA") := by decide
    rw [fileUriToPath_serverUri, percentDecode, hdecoded, Option.bind_some, Encoding.fromUTF8?_utf8]

end Index

end JMan.Lsp
