import JMan.Lib.Encoding
import JMan.Lib.Fallible

/-!
# Readers

Readers of binary data: each takes bytes off the front of what is left, or fails.

* `Exact` — a reader that succeeds looks at nothing but the bytes it takes.
* `whole_append`, `whole_cut` — data read to its end can neither be extended nor cut.
* `Reads` — what a reader makes of bytes that were written for it: the value, if that
  fits the limits of the reader, and an error otherwise.
-/

namespace Reading

open Encoding (Bytes)

abbrev Reader (ε α : Type) := StateT Bytes (Except ε) α

section Readers

variable {ε α β : Type}

def take (truncated : ε) (length : Nat) : Reader ε Bytes := fun input =>
  if length > input.length then .error truncated else .ok (input.splitAt length)

def many (element : Reader ε α) : Nat → Reader ε (List α)
  | 0 => pure []
  | count + 1 => do
    let first ← element
    let rest ← many element count
    return first :: rest

/-- A reader that must come to the end of its input. -/
def whole (trailing : ε) (reader : Reader ε α) (payload : Bytes) : Except ε α := do
  let read ← reader payload
  if read.2 ≠ [] then throw trailing else return read.1

theorem bind_apply (reader : Reader ε α) (next : α → Reader ε β) (input : Bytes) :
    (reader >>= next) input = reader input >>= fun read => next read.1 read.2 := rfl

theorem bind_eq_ok {reader : Reader ε α} {next : α → Reader ε β} {input rest : Bytes} {value : β} :
    (reader >>= next) input = .ok (value, rest) ↔
      ∃ first left, reader input = .ok (first, left) ∧ next first left = .ok (value, rest) := by
  rw [bind_apply, Fallible.bind_eq_ok, Prod.exists]

theorem take_append (truncated : ε) (bytes rest : Bytes) :
    take truncated bytes.length (bytes ++ rest) = .ok (bytes, rest) := by
  rw [take, if_neg (by simp), List.splitAt_eq, List.take_left, List.drop_left]

end Readers

-- Exact readers

section Exactness

variable {ε α β : Type} {reader : Reader ε α} {next : α → Reader ε β} {trailing : ε}
  {payload : Bytes} {value : α}

/-- A success depends on the bytes that are taken only. -/
def Exact (reader : Reader ε α) : Prop :=
  ∀ ⦃input value rest⦄, reader input = .ok (value, rest) →
    ∃ used, input = used ++ rest ∧ ∀ more, reader (used ++ more) = .ok (value, more)

theorem exact_pure (value : α) : Exact (pure value : Reader ε α) := by
  rintro input value rest ⟨⟩
  exact ⟨[], rfl, fun more => rfl⟩

theorem exact_throw (e : ε) : Exact (throw e : Reader ε α) := by
  rintro input value rest ⟨⟩

theorem Exact.bind (hreader : Exact reader) (hnext : ∀ value, Exact (next value)) :
    Exact (reader >>= next) := by
  intro input value rest h
  obtain ⟨first, left, hfirst, hrest⟩ := bind_eq_ok.mp h
  obtain ⟨used, rfl, hmore⟩ := hreader hfirst
  obtain ⟨used', rfl, hmore'⟩ := hnext first hrest
  refine ⟨used ++ used', (List.append_assoc _ _ _).symm, fun more => ?_⟩
  rw [List.append_assoc]
  exact bind_eq_ok.mpr ⟨first, used' ++ more, hmore _, hmore' more⟩

theorem exact_take (truncated : ε) (length : Nat) : Exact (take truncated length) := by
  intro input value rest h
  unfold take at h
  split at h
  · cases h
  next hlength =>
  rw [List.splitAt_eq] at h
  cases h
  refine ⟨input.take length, (List.take_append_drop length input).symm, fun more => ?_⟩
  have htaken : (input.take length).length = length := List.length_take_of_le (by omega)
  have hread := take_append truncated (input.take length) more
  rwa [htaken] at hread

theorem Exact.many (hreader : Exact reader) (count : Nat) : Exact (many reader count) := by
  induction count with
  | zero => exact exact_pure []
  | succ count ih => exact hreader.bind fun first => ih.bind fun rest => exact_pure _

theorem Exact.ite {p : Prop} [Decidable p] {other : Reader ε α} (hreader : Exact reader)
    (hother : Exact other) : Exact (if p then reader else other) := by
  split
  · exact hreader
  · exact hother

theorem whole_eq_ok : whole trailing reader payload = .ok value ↔
    reader payload = .ok (value, []) := by
  unfold whole
  rw [Fallible.bind_eq_ok]
  constructor
  · rintro ⟨read, hread, h⟩
    split at h
    · cases h
    · next hrest =>
      cases h
      rw [hread, ← not_not.mp hrest]
  · intro h
    exact ⟨_, h, rfl⟩

/-- **Data read to its end cannot be extended.** -/
theorem whole_append (hreader : Exact reader) (h : whole trailing reader payload = .ok value)
    {more : Bytes} (hmore : more ≠ []) : whole trailing reader (payload ++ more) = .error trailing := by
  obtain ⟨used, hused, hread⟩ := hreader (whole_eq_ok.mp h)
  rw [List.append_nil] at hused
  rw [hused, whole, hread more]
  exact if_pos hmore

/-- **Data read to its end cannot be cut.** -/
theorem whole_cut (hreader : Exact reader) (h : whole trailing reader payload = .ok value)
    {before after : Bytes} (hpayload : payload = before ++ after) (hafter : after ≠ []) :
    ∃ e, whole trailing reader before = .error e := by
  cases hbefore : whole trailing reader before with
  | error e => exact ⟨e, rfl⟩
  | ok cut =>
    rw [hpayload, whole_append hreader hbefore hafter] at h
    cases h

end Exactness

-- Reading what was written

section Written

variable {ε α β γ : Type} {limit : Nat} {reader : Reader ε α} {next : α → Reader ε β}
  {written written' : Bytes} {fits fits' : Prop} {value : α} {value' : β}

/-- Of bytes up to a size a reader makes the value, if it fits, and otherwise an error. -/
def Reads (limit : Nat) (reader : Reader ε α) (written : Bytes) (fits : Prop) (value : α) : Prop :=
  written.length ≤ limit → ∀ rest,
    (fits → reader (written ++ rest) = .ok (value, rest)) ∧
    (¬ fits → ∃ e, reader (written ++ rest) = .error e)

theorem Reads.bind (hreader : Reads limit reader written fits value)
    (hnext : Reads limit (next value) written' fits' value') :
    Reads limit (reader >>= next) (written ++ written') (fits ∧ fits') value' := by
  intro hlength rest
  rw [List.length_append] at hlength
  obtain ⟨hok, herror⟩ := hreader (by omega) (written' ++ rest)
  obtain ⟨hok', herror'⟩ := hnext (by omega) rest
  rw [List.append_assoc, bind_apply]
  by_cases hfits : fits
  · rw [hok hfits]
    exact ⟨fun h => hok' h.2, fun h => herror' fun hfits' => h ⟨hfits, hfits'⟩⟩
  · obtain ⟨e, he⟩ := herror hfits
    rw [he]
    exact ⟨fun h => absurd h.1 hfits, fun _ => ⟨e, rfl⟩⟩

theorem Reads.map (hreader : Reads limit reader written fits value) (f : α → β) :
    Reads limit (reader >>= fun read => pure (f read)) written fits (f value) := by
  intro hlength rest
  obtain ⟨hok, herror⟩ := hreader hlength rest
  rw [bind_apply]
  refine ⟨fun hfits => ?_, fun hfits => ?_⟩
  · rw [hok hfits]
    rfl
  · obtain ⟨e, he⟩ := herror hfits
    exact ⟨e, by rw [he]; rfl⟩

theorem Reads.of_eq (h : ∀ rest, reader (written ++ rest) = .ok (value, rest)) :
    Reads limit reader written True value :=
  fun _ rest => ⟨fun _ => h rest, fun hfits => absurd trivial hfits⟩

theorem Reads.congr (hreader : Reads limit reader written fits value) {fits' : Prop}
    (h : fits' ↔ fits) : Reads limit reader written fits' value := by
  rwa [propext h]

theorem Reads.many {write : γ → Bytes} {fits : γ → Prop} {f : γ → α}
    (hreader : ∀ c, Reads limit reader (write c) (fits c) (f c)) (cs : List γ) :
    Reads limit (many reader cs.length) (cs.flatMap write) (∀ c ∈ cs, fits c) (cs.map f) := by
  induction cs with
  | nil => exact (Reads.of_eq fun rest => rfl).congr (by simp)
  | cons c cs ih =>
    rw [List.flatMap_cons]
    exact ((hreader c).bind (ih.map (f c :: ·))).congr List.forall_mem_cons

/-- **Bytes that were written are read to their end.** -/
theorem Reads.whole (hreader : Reads limit reader written fits value) (trailing : ε)
    (hlength : written.length ≤ limit) :
    (fits → whole trailing reader written = .ok value) ∧
    (¬ fits → ∃ e, whole trailing reader written = .error e) := by
  have h := hreader hlength []
  rw [List.append_nil] at h
  refine ⟨fun hfits => whole_eq_ok.mpr (h.1 hfits), fun hfits => ?_⟩
  obtain ⟨e, he⟩ := h.2 hfits
  exact ⟨e, by rw [Reading.whole, he]; rfl⟩

end Written

end Reading
