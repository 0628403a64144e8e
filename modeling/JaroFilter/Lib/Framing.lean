import JaroFilter.Lib.Bytes

/-!
# Length-prefixed records

Little-endian numbers of a fixed width, fields with a four-byte length in
front, and records of a tag, a field count and that many fields: writer,
bounds-checked reader, and that the reader undoes the writer. The library knows
nothing of what the records mean; a caller says which tag goes with which
number of fields.
-/

namespace JaroFilter.Lib

/-! ### Numbers -/

/-- The low `k` bytes of a number, least significant first. -/
def littleEndian : ℕ → ℕ → Bytes
  | 0, _ => []
  | k + 1, n => UInt8.ofNat n :: littleEndian k (n / 256)

/-- The number spelt by its bytes, least significant first. -/
def littleValue : Bytes → ℕ
  | [] => 0
  | c :: s => c.toNat + 256 * littleValue s

@[simp] theorem littleEndian_length (k n : ℕ) : (littleEndian k n).length = k := by
  induction k generalizing n with
  | zero => rfl
  | succ k ih => simp [littleEndian, ih]

theorem littleValue_littleEndian {k n : ℕ} (h : n < 256 ^ k) :
    littleValue (littleEndian k n) = n := by
  induction k generalizing n with
  | zero =>
    have hn : n = 0 := by simpa using h
    subst hn
    rfl
  | succ k ih =>
    have hdiv : n / 256 < 256 ^ k := Nat.div_lt_of_lt_mul (by rwa [Nat.pow_succ'] at h)
    simp only [littleEndian, littleValue, ih hdiv, UInt8.toNat_ofNat']
    omega

/-- A number of `k` bytes from the front of a buffer. -/
def readNumber (k : ℕ) (s : Bytes) : Option (ℕ × Bytes) :=
  if (s.take k).length < k then none else some (littleValue (s.take k), s.drop k)

theorem readNumber_append {k n : ℕ} (h : n < 256 ^ k) (rest : Bytes) :
    readNumber k (littleEndian k n ++ rest) = some (n, rest) := by
  have htake : (littleEndian k n ++ rest).take k = littleEndian k n := by
    simp
  have hdrop : (littleEndian k n ++ rest).drop k = rest := by
    simp
  simp only [readNumber, htake, hdrop, littleEndian_length, Nat.lt_irrefl, if_false,
    littleValue_littleEndian h]

/-! ### Fields and records -/

structure Record where
  tag : Byte
  fields : List Bytes
  deriving DecidableEq, Repr

def encodeField (f : Bytes) : Bytes := littleEndian 4 f.length ++ f

def encodeRecord (r : Record) : Bytes :=
  r.tag :: (littleEndian 4 r.fields.length ++ r.fields.flatMap encodeField)

def encodeRecords (rs : List Record) : Bytes := rs.flatMap encodeRecord

theorem encodeRecords_cons (r : Record) (rs : List Record) :
    encodeRecords (r :: rs) = encodeRecord r ++ encodeRecords rs := List.flatMap_cons

theorem length_le_flatMap {α : Type} {f : α → Bytes} {l : List α} {a : α} (h : a ∈ l) :
    (f a).length ≤ (l.flatMap f).length := by
  obtain ⟨s, t, rfl⟩ := List.append_of_mem h
  simp only [List.flatMap_append, List.flatMap_cons, List.length_append]
  omega

/-- Every size of the record fits its four bytes. -/
structure Record.Fits (r : Record) : Prop where
  count : r.fields.length < 256 ^ 4
  sizes : ∀ f ∈ r.fields, f.length < 256 ^ 4

/-- A number of fields from the front of a buffer. -/
def readFields : ℕ → Bytes → Option (List Bytes × Bytes)
  | 0, s => some ([], s)
  | n + 1, s =>
    match readNumber 4 s with
    | none => none
    | some (size, s) =>
      if s.length < size then none
      else match readFields n (s.drop size) with
        | none => none
        | some (fs, rest) => some (s.take size :: fs, rest)

/-- One record; `accept` sees the tag and the field count before the fields
are read. -/
def readRecord (accept : Byte → ℕ → Bool) : Bytes → Option (Record × Bytes)
  | [] => none
  | tag :: s =>
    match readNumber 4 s with
    | none => none
    | some (count, s) =>
      if accept tag count then
        match readFields count s with
        | none => none
        | some (fields, rest) => some (⟨tag, fields⟩, rest)
      else none

def readRecords (accept : Byte → ℕ → Bool) : ℕ → Bytes → Option (List Record × Bytes)
  | 0, s => some ([], s)
  | n + 1, s =>
    match readRecord accept s with
    | none => none
    | some (r, s) =>
      match readRecords accept n s with
      | none => none
      | some (rs, rest) => some (r :: rs, rest)

/-! ### Reading what was written -/

theorem readFields_encode {fs : List Bytes} (h : ∀ f ∈ fs, f.length < 256 ^ 4) (rest : Bytes) :
    readFields fs.length (fs.flatMap encodeField ++ rest) = some (fs, rest) := by
  induction fs with
  | nil => rfl
  | cons f fs ih =>
    have ih := ih fun g hg => h g (by simp [hg])
    have hread := readNumber_append (h f (by simp)) (f ++ (fs.flatMap encodeField ++ rest))
    have hlen : ¬ (f ++ (fs.flatMap encodeField ++ rest)).length < f.length := by
      simp
    have htake : (f ++ (fs.flatMap encodeField ++ rest)).take f.length = f := List.take_left
    have hdrop : (f ++ (fs.flatMap encodeField ++ rest)).drop f.length =
        fs.flatMap encodeField ++ rest := List.drop_left
    have happ : (f :: fs).flatMap encodeField ++ rest =
        littleEndian 4 f.length ++ (f ++ (fs.flatMap encodeField ++ rest)) := by
      simp only [List.flatMap_cons, encodeField, List.append_assoc]
    simp only [happ, List.length_cons, readFields, hread, hlen, if_false, hdrop, ih, htake]

theorem readRecord_encode (accept : Byte → ℕ → Bool) {r : Record} (hf : r.Fits)
    (ha : accept r.tag r.fields.length = true) (rest : Bytes) :
    readRecord accept (encodeRecord r ++ rest) = some (r, rest) := by
  have hread := readNumber_append hf.count (r.fields.flatMap encodeField ++ rest)
  simp only [encodeRecord, List.cons_append, List.append_assoc, readRecord, hread, ha, if_true,
    readFields_encode hf.sizes]

theorem readRecords_encode (accept : Byte → ℕ → Bool) {rs : List Record}
    (h : ∀ r ∈ rs, r.Fits ∧ accept r.tag r.fields.length = true) (rest : Bytes) :
    readRecords accept rs.length (encodeRecords rs ++ rest) = some (rs, rest) := by
  induction rs with
  | nil => rfl
  | cons r rs ih =>
    obtain ⟨hf, ha⟩ := h r (by simp)
    have ih := ih fun q hq => h q (by simp [hq])
    have happ : encodeRecords (r :: rs) ++ rest = encodeRecord r ++ (encodeRecords rs ++ rest) := by
      rw [encodeRecords_cons, List.append_assoc]
    simp only [List.length_cons, readRecords, happ, readRecord_encode accept hf ha, ih]

/-- The framing is uniquely decodable, whatever the number of records. -/
theorem encodeRecords_injective {rs qs : List Record} (hr : ∀ r ∈ rs, r.Fits) (hq : ∀ q ∈ qs, q.Fits)
    (h : encodeRecords rs = encodeRecords qs) : rs = qs := by
  induction rs generalizing qs with
  | nil =>
    cases qs with
    | nil => rfl
    | cons q qs => simp [encodeRecords, encodeRecord] at h
  | cons r rs ih =>
    cases qs with
    | nil => simp [encodeRecords, encodeRecord] at h
    | cons q qs =>
      have h1 := readRecord_encode (fun _ _ => true) (hr r (by simp)) rfl (encodeRecords rs)
      have h2 := readRecord_encode (fun _ _ => true) (hq q (by simp)) rfl (encodeRecords qs)
      rw [encodeRecords_cons, encodeRecords_cons] at h
      rw [h, h2] at h1
      obtain ⟨h1, hrest⟩ := Prod.mk.inj (Option.some.inj h1)
      rw [← h1, ih (fun a ha => hr a (by simp [ha])) (fun a ha => hq a (by simp [ha])) hrest.symm]

/-! ### Readers that accept more -/

theorem readFields_length {n : ℕ} {s rest : Bytes} {fs : List Bytes}
    (h : readFields n s = some (fs, rest)) : fs.length = n := by
  induction n generalizing s fs with
  | zero =>
    cases h
    rfl
  | succ n ih =>
    simp only [readFields] at h
    split at h
    · cases h
    · split at h
      · cases h
      · split at h
        · cases h
        · rename_i hr
          cases h
          simp [ih hr]

theorem readRecords_length {accept : Byte → ℕ → Bool} {n : ℕ} {s rest : Bytes} {rs : List Record}
    (h : readRecords accept n s = some (rs, rest)) : rs.length = n := by
  induction n generalizing s rs with
  | zero =>
    cases h
    rfl
  | succ n ih =>
    simp only [readRecords] at h
    split at h
    · cases h
    · split at h
      · cases h
      · rename_i hrs
        cases h
        simp [ih hrs]

theorem readRecord_accept {accept : Byte → ℕ → Bool} {s rest : Bytes} {r : Record}
    (h : readRecord accept s = some (r, rest)) : accept r.tag r.fields.length = true := by
  cases s with
  | nil => cases h
  | cons tag s =>
    simp only [readRecord] at h
    split at h
    · cases h
    · split at h
      · rename_i ha
        split at h
        · cases h
        · rename_i hr
          cases h
          rw [readFields_length hr]
          exact ha
      · cases h

theorem readRecord_mono {accept accept' : Byte → ℕ → Bool}
    (hle : ∀ tag n, accept tag n = true → accept' tag n = true) {s rest : Bytes} {r : Record}
    (h : readRecord accept s = some (r, rest)) : readRecord accept' s = some (r, rest) := by
  cases s with
  | nil => cases h
  | cons tag s =>
    simp only [readRecord] at h ⊢
    split at h
    · cases h
    · split at h
      · rename_i ha
        simp only [hle _ _ ha, if_true]
        exact h
      · cases h

theorem readRecords_mono {accept accept' : Byte → ℕ → Bool}
    (hle : ∀ tag n, accept tag n = true → accept' tag n = true) {n : ℕ} {s rest : Bytes}
    {rs : List Record} (h : readRecords accept n s = some (rs, rest)) :
    readRecords accept' n s = some (rs, rest) := by
  induction n generalizing s rs with
  | zero => exact h
  | succ n ih =>
    simp only [readRecords] at h ⊢
    split at h
    · cases h
    · rename_i r s' hr
      simp only [readRecord_mono hle hr]
      split at h
      · cases h
      · rename_i hrs
        cases h
        simp only [ih hrs]

end JaroFilter.Lib
