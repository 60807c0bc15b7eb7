import Mathlib.Data.List.Infix
import Mathlib.Data.List.SplitOn

/-!
# Paths

Absolute paths as lists of components, texts joined to them, and the place a
path leads to when every `..` in it is followed.

* `Below` — a path leads strictly below another one.
* `walk` — how deep components lead, if they never climb above their start.
* `stays_of_below`, `below_of_stays` — a text joined below every base stays below
  it exactly when it is relative and its walk ends below the start.
-/

namespace Paths

/-- An absolute path: its components after the root, `..` among them. -/
abbrev Path := List String

/-- The components of a text: what stands between its slashes, without empty
components and `.`. -/
def segments (text : String) : List String :=
  ((text.toList.splitOn '/').map String.ofList).filter fun c => c ≠ "" ∧ c ≠ "."

def isAbsolute (text : String) : Bool := text.toList.head? = some '/'

/-- An absolute text replaces the path it is joined to. -/
def join (path : Path) (text : String) : Path :=
  if isAbsolute text then segments text else path ++ segments text

/-- A path, its parent, the parent's parent and so on to the root. -/
def ancestors (path : Path) : List Path := path.inits.reverse

/-- One component followed: `..` goes to the parent, which for the root is the root. -/
def descend (place : Path) (component : String) : Path :=
  if component = ".." then place.dropLast else place ++ [component]

/-- The place a path leads to, where no link is on the way. -/
def locate (path : Path) : Path := path.foldl descend []

def display (path : Path) : String := "/" ++ "/".intercalate path

/-- A name up to its last dot, if there is anything before it. -/
def fileStem (name : List Char) : List Char :=
  match name.reverse.dropWhile (· ≠ '.') with
  | _ :: c :: before => (c :: before).reverse
  | _ => name

/-- `path.with_extension(..)` -/
def withExtension (path : Path) (extension : String) : Path :=
  match path.getLast? with
  | none => path
  | some name => path.dropLast ++ [String.ofList (fileStem name.toList ++ '.' :: extension.toList)]

theorem fileStem_spec (name : List Char) :
    name = fileStem name ∨ ∃ extension, name = fileStem name ++ '.' :: extension ∧
      '.' ∉ extension := by
  have hsplit := List.takeWhile_append_dropWhile (p := fun c => decide (c ≠ '.')) (l := name.reverse)
  have htake : '.' ∉ name.reverse.takeWhile (fun c => decide (c ≠ '.')) := fun hmem =>
    of_decide_eq_true (List.all_eq_true.mp (List.all_takeWhile) '.' hmem) rfl
  unfold fileStem
  split
  · next first c before hdrop =>
    right
    have hhead : first = '.' := by
      have := List.head?_dropWhile_not (fun c => decide (c ≠ '.')) name.reverse
      rw [hdrop] at this
      simpa using this
    refine ⟨(name.reverse.takeWhile fun c => decide (c ≠ '.')).reverse, ?_, ?_⟩
    · rw [hdrop, hhead] at hsplit
      have hname := congrArg List.reverse hsplit
      rw [List.reverse_reverse, List.reverse_append, List.reverse_cons, List.append_assoc] at hname
      exact hname.symm
    · rwa [List.mem_reverse]
  · left
    rfl

theorem withExtension_ne {path : Path} {extension : String} (hpath : path ≠ [])
    (hdot : '.' ∈ extension.toList) : withExtension path extension ≠ path := by
  intro h
  rw [withExtension, List.getLast?_eq_getLast_of_ne_nil hpath] at h
  have hpaths := h.trans (List.dropLast_append_getLast hpath).symm
  obtain ⟨-, hlast⟩ := List.append_inj' hpaths rfl
  have hname : fileStem (path.getLast hpath).toList ++ '.' :: extension.toList =
      (path.getLast hpath).toList := by
    have htexts := congrArg String.toList (List.cons.inj hlast).1
    rwa [String.toList_ofList] at htexts
  rcases fileStem_spec (path.getLast hpath).toList with hstem | ⟨rest, hrest, hnodot⟩
  · rw [← hstem] at hname
    have hlength := congrArg List.length hname
    rw [List.length_append, List.length_cons] at hlength
    omega
  · have hrests := List.append_cancel_left (hname.trans hrest)
    rw [List.cons.injEq] at hrests
    exact hnodot (hrests.2 ▸ hdot)

theorem exists_withExtension (base : Path) {name : String} {first : Char}
    (hname : name.toList.head? = some first) (hfirst : first ≠ '.') (extension : String) :
    ∃ renamed, withExtension (base ++ [name]) extension = base ++ [renamed] ∧
      renamed.toList.head? = some first := by
  refine ⟨String.ofList (fileStem name.toList ++ '.' :: extension.toList), ?_, ?_⟩
  · rw [withExtension, List.getLast?_concat, List.dropLast_concat]
  rw [String.toList_ofList, List.head?_append]
  rcases fileStem_spec name.toList with hstem | ⟨rest, hrest, -⟩
  · rw [← hstem, hname]
    rfl
  · cases hstem : fileStem name.toList with
    | nil =>
      rw [hrest, hstem, List.nil_append, List.head?_cons] at hname
      exact absurd (Option.some.inj hname).symm hfirst
    | cons c before =>
      rw [hrest, hstem, List.cons_append, List.head?_cons] at hname
      rw [List.head?_cons, hname]
      rfl

-- Paths below others

theorem locate_append (path components : Path) :
    locate (path ++ components) = components.foldl descend (locate path) := List.foldl_append

/-- The place is strictly below that of the base. -/
def Inside (base place : Path) : Prop := ∃ c rest, place = locate base ++ c :: rest

/-- The path leads to a place strictly below that of the base. -/
def Below (base path : Path) : Prop := Inside base (locate path)

/-- The depth below its start to which a list of components leads, unless it
climbs above the start on its way. -/
def walk : Nat → List String → Option Nat
  | depth, [] => some depth
  | depth, c :: cs =>
    if c = ".." then
      match depth with
      | 0 => none
      | depth + 1 => walk depth cs
    else walk (depth + 1) cs

theorem foldl_descend_of_walk {cs : List String} (base : Path) {place : Path} {depth : Nat}
    (h : walk place.length cs = some depth) :
    ∃ reached : Path, reached.length = depth ∧ cs.foldl descend (base ++ place) = base ++ reached := by
  induction cs generalizing place with
  | nil =>
    cases h
    exact ⟨place, rfl, rfl⟩
  | cons c cs ih =>
    simp only [walk] at h
    split at h
    · next hparent =>
      cases hlength : place.length with
      | zero =>
        rw [hlength] at h
        cases h
      | succ n =>
        rw [hlength] at h
        have hne : place ≠ [] := List.ne_nil_of_length_eq_add_one hlength
        have hlast : place.dropLast.length = n := by
          rw [List.length_dropLast]
          omega
        obtain ⟨reached, hend, hfold⟩ := @ih place.dropLast (hlast ▸ h)
        refine ⟨reached, hend, ?_⟩
        rw [List.foldl_cons, descend, if_pos hparent, List.dropLast_append_of_ne_nil hne]
        exact hfold
    · next hparent =>
      have hlength : (place ++ [c]).length = place.length + 1 := by simp
      obtain ⟨reached, hend, hfold⟩ := @ih (place ++ [c]) (hlength ▸ h)
      refine ⟨reached, hend, ?_⟩
      rw [List.foldl_cons, descend, if_neg hparent, List.append_assoc]
      exact hfold

theorem foldl_descend_of_walk_none {cs : List String} {place : Path}
    (h : walk place.length cs = none) (a b : String) :
    cs.foldl descend (a :: place) = cs.foldl descend (b :: place) := by
  induction cs generalizing place with
  | nil => cases h
  | cons c cs ih =>
    simp only [walk] at h
    rw [List.foldl_cons, List.foldl_cons]
    split at h
    · next hparent =>
      simp only [descend, if_pos hparent]
      cases place with
      | nil => rfl
      | cons x place =>
        simp only [List.length_cons] at h
        simp only [List.dropLast_cons_cons]
        have hlength : (x :: place).dropLast.length = place.length := by
          rw [List.length_dropLast, List.length_cons, Nat.add_sub_cancel]
        exact ih (hlength ▸ h)
    · next hparent =>
      simp only [descend, if_neg hparent, List.cons_append]
      have hlength : (place ++ [c]).length = place.length + 1 := by simp
      exact ih (hlength ▸ h)

/-- The text is relative, and from `depth` below a base it leads strictly below
the base without climbing above it. -/
def Stays (depth : Nat) (text : String) : Prop :=
  isAbsolute text = false ∧ ∃ k, walk depth (segments text) = some (k + 1)

theorem locate_append_plain {inside : List String} (hinside : ".." ∉ inside) (base : Path) :
    locate (base ++ inside) = locate base ++ inside := by
  rw [locate_append]
  generalize locate base = place
  induction inside generalizing place with
  | nil => simp
  | cons c cs ih =>
    rw [List.mem_cons, not_or] at hinside
    rw [List.foldl_cons, descend, if_neg (Ne.symm hinside.1), ih hinside.2, List.append_assoc]
    rfl

theorem below_of_stays (inside : List String) (hinside : ".." ∉ inside) {text : String}
    (h : Stays inside.length text) (base : Path) : Below base (join (base ++ inside) text) := by
  obtain ⟨hrelative, k, hwalk⟩ := h
  obtain ⟨place, hlength, hfold⟩ := foldl_descend_of_walk (locate base) hwalk
  obtain ⟨c, rest, rfl⟩ := List.exists_cons_of_length_eq_add_one hlength
  refine ⟨c, rest, ?_⟩
  rw [join, if_neg (by simp [hrelative]), locate_append, locate_append_plain hinside, hfold]

theorem stays_of_below (inside : List String) (hinside : ".." ∉ inside) {text : String}
    (h : ∀ name ∈ ["a", "b"], Below [name] (join (name :: inside) text)) :
    Stays inside.length text := by
  obtain ⟨c, rest, ha⟩ := h "a" (by simp)
  obtain ⟨c', rest', hb⟩ := h "b" (by simp)
  have hlocate : ∀ name ∈ ["a", "b"], locate (name :: inside) = name :: inside := by
    intro name hname
    have hplain : ".." ∉ name :: inside := by
      rw [List.mem_cons, not_or]
      refine ⟨?_, hinside⟩
      rintro rfl
      revert hname
      decide
    exact locate_append_plain hplain []
  have hbase : ∀ name ∈ ["a", "b"], locate [name] = [name] := by decide
  rw [hbase "a" (by simp)] at ha
  rw [hbase "b" (by simp)] at hb
  have hrelative : isAbsolute text = false := by
    by_contra habsolute
    rw [Bool.not_eq_false] at habsolute
    simp only [join, if_pos habsolute] at ha hb
    rw [ha] at hb
    simp at hb
  simp only [join, hrelative, Bool.false_eq_true, if_false, locate_append,
    hlocate "a" (by simp), hlocate "b" (by simp)] at ha hb
  refine ⟨hrelative, ?_⟩
  cases hwalk : walk inside.length (segments text) with
  | none =>
    -- the end of the walk would have to begin with both names
    have hsame := foldl_descend_of_walk_none hwalk "a" "b"
    rw [ha, hb] at hsame
    simp at hsame
  | some depth =>
    obtain ⟨place, hlength, hfold⟩ := foldl_descend_of_walk ["a"] hwalk
    cases depth with
    | succ k => exact ⟨k, rfl⟩
    | zero =>
      rw [List.length_eq_zero_iff] at hlength
      rw [hlength] at hfold
      have hend := ha.symm.trans hfold
      simp at hend

theorem walk_add {depth reached : Nat} {cs : List String} (h : walk depth cs = some reached)
    (n : Nat) : walk (depth + n) cs = some (reached + n) := by
  induction cs generalizing depth with
  | nil =>
    cases h
    rfl
  | cons c cs ih =>
    simp only [walk] at h ⊢
    split at h
    · next hparent =>
      rw [if_pos hparent]
      cases depth with
      | zero => cases h
      | succ depth =>
        rw [Nat.succ_add]
        exact ih h
    · next hparent =>
      rw [if_neg hparent, Nat.add_right_comm]
      exact ih h

theorem Stays.add {depth : Nat} {text : String} (h : Stays depth text) (n : Nat) :
    Stays (depth + n) text := by
  obtain ⟨hrelative, k, hwalk⟩ := h
  exact ⟨hrelative, k + n, Nat.add_right_comm k n 1 ▸ walk_add hwalk n⟩

-- Texts that climb

theorem segments_slash (a b : String) : segments (a ++ "/" ++ b) = segments a ++ segments b := by
  have hlist : (a ++ "/" ++ b).toList = a.toList ++ '/' :: b.toList := by simp
  rw [segments, hlist, List.splitOn_append_cons_self, List.map_append, List.filter_append]
  rfl

theorem walk_append (depth : Nat) (cs ds : List String) :
    walk depth (cs ++ ds) = (walk depth cs).bind fun reached => walk reached ds := by
  induction cs generalizing depth with
  | nil => rfl
  | cons c cs ih =>
    simp only [List.cons_append, walk]
    split
    · cases depth with
      | zero => rfl
      | succ depth => exact ih depth
    · exact ih (depth + 1)

theorem walk_le {depth reached : Nat} {cs : List String} (h : walk depth cs = some reached) :
    reached ≤ depth + cs.length := by
  induction cs generalizing depth with
  | nil =>
    cases h
    exact Nat.le_add_right ..
  | cons c cs ih =>
    simp only [walk] at h
    rw [List.length_cons]
    split at h
    · cases depth with
      | zero => cases h
      | succ depth =>
        have := ih h
        omega
    · have := ih h
      omega

theorem walk_replicate_parent {depth n : Nat} (h : depth < n) :
    walk depth (List.replicate n "..") = none := by
  induction n generalizing depth with
  | zero => omega
  | succ n ih =>
    rw [List.replicate_succ]
    cases depth with
    | zero => rfl
    | succ depth => exact ih (by omega)

/-- `/../..` and so on. -/
def climb : Nat → String
  | 0 => ""
  | n + 1 => climb n ++ "/" ++ ".."

theorem segments_climb (n : Nat) : segments (climb n) = List.replicate n ".." := by
  induction n with
  | zero => decide +kernel
  | succ n ih =>
    have hparent : segments ".." = [".."] := by decide +kernel
    rw [climb, segments_slash, ih, hparent, List.replicate_succ']

theorem not_stays_climb (depth : Nat) (a b : String) :
    ¬ Stays depth (a ++ "/" ++ climb (depth + (segments a).length + 1) ++ "/" ++ b) := by
  rintro ⟨-, k, hwalk⟩
  rw [segments_slash, segments_slash, segments_climb, walk_append, walk_append] at hwalk
  cases hstart : walk depth (segments a) with
  | none =>
    rw [hstart] at hwalk
    cases hwalk
  | some reached =>
    have hle := walk_le hstart
    rw [hstart, Option.bind_some, walk_replicate_parent (by omega)] at hwalk
    cases hwalk

-- Texts that name something

theorem splitOn_intercalate {texts : List String} (hne : texts ≠ [])
    (hnone : ∀ text ∈ texts, '/' ∉ text.toList) :
    ("/".intercalate texts).toList.splitOn '/' = texts.map String.toList := by
  rw [String.toList_intercalate]
  refine List.splitOn_intercalate '/' ?_ (fun h => hne (List.map_eq_nil_iff.mp h))
  intro text htext
  obtain ⟨whole, hwhole, rfl⟩ := List.mem_map.mp htext
  exact hnone whole hwhole

theorem exists_mem_of_intercalate {x : Char} {pieces : List (List Char)}
    (hx : x ∈ ['/'].intercalate pieces) (hslash : x ≠ '/') : ∃ piece ∈ pieces, x ∈ piece := by
  induction pieces with
  | nil => simp at hx
  | cons piece pieces ih =>
    cases pieces with
    | nil => exact ⟨piece, List.mem_cons_self, by simpa using hx⟩
    | cons next pieces =>
      rw [List.intercalate_cons_cons, List.mem_append, List.mem_append, List.mem_singleton] at hx
      rcases hx with (hx | hx) | hx
      · exact ⟨piece, List.mem_cons_self, hx⟩
      · exact absurd hx hslash
      · obtain ⟨found, hfound, hmem⟩ := ih hx
        exact ⟨found, List.mem_cons_of_mem _ hfound, hmem⟩

theorem exists_mem_splitOn {x : Char} {text : List Char} (hx : x ∈ text) (hslash : x ≠ '/') :
    ∃ piece ∈ text.splitOn '/', x ∈ piece := by
  have hjoined : ['/'].intercalate (text.splitOn '/') = text := List.intercalate_splitOn '/'
  exact exists_mem_of_intercalate (hjoined.symm ▸ hx) hslash

theorem segments_ne_nil {x : Char} {text : String} (hx : x ∈ text.toList) (hslash : x ≠ '/')
    (hdot : x ≠ '.') : segments text ≠ [] := by
  obtain ⟨piece, hpiece, hmem⟩ := exists_mem_splitOn hx hslash
  have hlist : (String.ofList piece).toList = piece := String.toList_ofList
  refine List.ne_nil_of_mem (a := String.ofList piece) ?_
  rw [segments, List.mem_filter, decide_eq_true_eq]
  refine ⟨List.mem_map_of_mem hpiece, ?_, ?_⟩
  · intro hempty
    rw [hempty] at hlist
    rw [← hlist] at hmem
    cases hmem
  · intro hperiod
    rw [hperiod] at hlist
    rw [← hlist] at hmem
    exact hdot (List.mem_singleton.mp hmem)

theorem join_ne_nil {text : String} (h : segments text ≠ []) (path : Path) : join path text ≠ [] := by
  rw [join]
  split
  · exact h
  · exact List.append_ne_nil_of_right_ne_nil _ h

end Paths
