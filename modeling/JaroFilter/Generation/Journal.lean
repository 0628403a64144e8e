import JaroFilter.Generation.Disk

/-!
# The journals (`generation.c:319-380`)

The text of the publication journal and of the input journal, and their
readers. Both readers accept one spelling of what they read: the text they
would have written themselves.
-/

namespace JaroFilter

open Lib

/-! ### Numbers -/

/-- The `%o` text of permission bits. -/
def octalText (m : Mode) : Bytes :=
  let digit := fun n : ℕ => UInt8.ofNat (48 + n % 8)
  if m.val < 8 then [digit m.val]
  else if m.val < 64 then [digit (m.val / 8), digit m.val]
  else [digit (m.val / 64), digit (m.val / 8), digit m.val]

def octalValue (s : Bytes) : ℕ := s.foldl (fun n c => n * 8 + (c.toNat - 48)) 0

/-- Every mode is read back, from one to three digits. -/
theorem octal_table : ∀ m : Mode, octalValue (octalText m) = m.val ∧ (octalText m).length ≤ 3 ∧
    (octalText m).all (fun c => 48 ≤ c && c ≤ 55) = true := by
  decide +kernel

def flagText (b : Bool) : Bytes := if b then [49] else [48]

theorem not_mem_octalText {c : Byte} (m : Mode) (h : c < 48) : c ∉ octalText m := by
  intro hc
  have hdigit := List.all_eq_true.mp (octal_table m).2.2 c hc
  simp only [Bool.and_eq_true, decide_eq_true_eq] at hdigit
  exact absurd h (UInt8.not_lt.mpr hdigit.1)

theorem not_mem_flagText {c : Byte} (b : Bool) (h : c < 48) : c ∉ flagText b := by
  intro hc
  cases b with
  | true =>
    rw [show flagText true = [49] from rfl, List.mem_singleton] at hc
    subst hc
    exact absurd h (by decide)
  | false =>
    rw [show flagText false = [48] from rfl, List.mem_singleton] at hc
    subst hc
    exact absurd h (by decide)

theorem not_mem_validId {c : Byte} {s : Bytes} (hs : validId s = true) (h : c < 48) : c ∉ s := by
  intro hc
  simp only [validId, Bool.and_eq_true, List.all_eq_true] at hs
  have hdigit := hs.2 c hc
  simp only [isLowerHex, Bool.or_eq_true, Bool.and_eq_true, decide_eq_true_eq] at hdigit
  rcases hdigit with hd | hd
  · exact absurd h (UInt8.not_lt.mpr hd.1)
  · exact absurd (UInt8.lt_of_lt_of_le h (by decide : (48 : Byte) ≤ 97)) (UInt8.not_lt.mpr hd.1)

/-! ### The publication journal -/

/-- The fields of a journal; no old selector is the empty ID. -/
structure Journal where
  old : Bytes
  present : Bool
  mode : Mode
  next : Bytes
  old_valid : old = [] ∨ validId old = true
  next_valid : validId next = true

/-- The text `publish` writes (`generation.c:462`). -/
def journalLine (old : Bytes) (present : Bool) (mode : Mode) (next : Bytes) : Bytes :=
  [32].intercalate [cstr "JFT1", if old = [] then cstr "-" else old, flagText present,
    octalText mode, next ++ [10]]

def journalText (j : Journal) : Bytes := journalLine j.old j.present j.mode j.next

/-- `read_journal` (`generation.c:319`) on the bytes of the file. -/
def readJournalText (data : Bytes) : Option Journal :=
  match data.splitOn 32 with
  | [_, old, present, mode, next] =>
    if h : (old = cstr "-" ∨ validId old = true) ∧ validId next.dropLast = true ∧ octalValue mode < 512 then
      let j : Journal := ⟨if old = cstr "-" then [] else old, present = [49], ⟨octalValue mode, h.2.2⟩,
        next.dropLast, by by_cases hd : old = cstr "-" <;> simp_all, h.2.1⟩
      if journalText j = data then some j else none
    else none
  | _ => none

theorem validId_length {s : Bytes} (h : validId s = true) : s.length = 64 := by
  simp only [validId, Bool.and_eq_true, beq_iff_eq] at h
  exact h.1

theorem readJournalText_journalText (j : Journal) : readJournalText (journalText j) = some j := by
  obtain ⟨old, present, mode, next, hold, hnext⟩ := j
  have hdash : cstr "-" ≠ [] ∧ (cstr "-").length = 1 ∧ 32 ∉ cstr "-" ∧ 32 ∉ cstr "JFT1" := by decide
  have holdText : 32 ∉ (if old = [] then cstr "-" else old) := by
    split
    · exact hdash.2.2.1
    · rename_i hne
      exact not_mem_validId (hold.resolve_left hne) (by decide)
  have hnextText : 32 ∉ next ++ [10] := by
    rw [List.mem_append]
    intro h
    rcases h with h | h
    · exact not_mem_validId hnext (by decide) h
    · exact absurd h (by decide)
  have hsplit : (journalText ⟨old, present, mode, next, hold, hnext⟩).splitOn 32 =
      [cstr "JFT1", if old = [] then cstr "-" else old, flagText present, octalText mode, next ++ [10]] := by
    apply List.splitOn_intercalate
    · intro l hl
      simp only [List.mem_cons, List.not_mem_nil, or_false] at hl
      rcases hl with rfl | rfl | rfl | rfl | rfl
      · exact hdash.2.2.2
      · exact holdText
      · exact not_mem_flagText _ (by decide)
      · exact not_mem_octalText _ (by decide)
      · exact hnextText
    · simp
  have hflag : decide (flagText present = [49]) = present := by cases present <;> decide
  have hback : (if (if old = [] then cstr "-" else old) = cstr "-" then [] else
      if old = [] then cstr "-" else old) = old := by
    by_cases hnil : old = []
    · simp [hnil]
    · have hlen := validId_length (hold.resolve_left hnil)
      have hne : old ≠ cstr "-" := by
        intro h
        rw [h, hdash.2.1] at hlen
        exact absurd hlen (by decide)
      simp [hnil, hne]
  have hok : ((if old = [] then cstr "-" else old) = cstr "-" ∨
      validId (if old = [] then cstr "-" else old) = true) := by
    by_cases hnil : old = []
    · simp [hnil]
    · simp [hnil, hold.resolve_left hnil]
  have hoct := (octal_table mode).1
  unfold readJournalText
  rw [hsplit]
  simp only [hok, List.dropLast_concat, hnext, hoct, mode.isLt, and_self, dif_pos, hflag, hback]
  simp

theorem journalText_length (j : Journal) : (journalText j).length ≤ 256 := by
  have htag : (cstr "JFT1").length = 4 ∧ (cstr "-").length = 1 := by decide
  have hflag : (flagText j.present).length = 1 := by cases j.present <;> rfl
  have hoct := (octal_table j.mode).2.1
  have hnext := validId_length j.next_valid
  have hold : (if j.old = [] then cstr "-" else j.old).length ≤ 64 := by
    split
    · rw [htag.2]
      decide
    · rename_i hne
      rw [validId_length (j.old_valid.resolve_left hne)]
  simp only [journalText, journalLine, List.intercalate, List.intersperse,
    List.flatten_cons, List.flatten_nil, List.length_append, List.length_cons, List.length_nil, htag.1, hflag]
  omega

/-! ### The input journal -/

/-- What the journal keeps of one input. -/
structure InputLine where
  changed : Bool
  present : Bool
  mode : Mode
  deriving DecidableEq

def lineText (l : InputLine) : Bytes :=
  [32].intercalate [flagText l.changed, flagText l.present, octalText l.mode]

/-- The text `prepare_inputs` writes (`generation.c:397`). -/
def importText (lines : Fin 4 → InputLine) : Bytes :=
  (List.finRange 4).flatMap fun i => lineText (lines i) ++ [10]

def readLine (s : Bytes) : Option InputLine :=
  match s.splitOn 32 with
  | [changed, present, mode] =>
    if h : octalValue mode < 512 then some ⟨changed = [49], present = [49], ⟨octalValue mode, h⟩⟩
    else none
  | _ => none

/-- The reader in `recover_inputs` (`generation.c:357-364`). -/
def readImportText (data : Bytes) : Option (Fin 4 → InputLine) :=
  match data.splitOn 10 with
  | [a, b, c, d, []] =>
    match readLine a, readLine b, readLine c, readLine d with
    | some a, some b, some c, some d =>
      if importText ![a, b, c, d] = data then some ![a, b, c, d] else none
    | _, _, _, _ => none
  | _ => none

theorem readLine_lineText (l : InputLine) : readLine (lineText l) = some l := by
  obtain ⟨changed, present, mode⟩ := l
  have hsplit : (lineText ⟨changed, present, mode⟩).splitOn 32 =
      [flagText changed, flagText present, octalText mode] := by
    apply List.splitOn_intercalate
    · intro l hl
      simp only [List.mem_cons, List.not_mem_nil, or_false] at hl
      rcases hl with rfl | rfl | rfl
      · exact not_mem_flagText _ (by decide)
      · exact not_mem_flagText _ (by decide)
      · exact not_mem_octalText _ (by decide)
    · simp
  have hflag : ∀ b, decide (flagText b = [49]) = b := by
    intro b
    cases b <;> decide
  unfold readLine
  rw [hsplit]
  simp only [(octal_table mode).1, mode.isLt, dif_pos, hflag]

theorem not_mem_lineText (l : InputLine) : 10 ∉ lineText l := by
  have hf := fun b => @not_mem_flagText 10 b (by decide)
  have ho := @not_mem_octalText 10 l.mode (by decide)
  simp [lineText, List.intercalate, hf, ho]

theorem readImportText_importText (lines : Fin 4 → InputLine) :
    readImportText (importText lines) = some lines := by
  have hvec : ![lines 0, lines 1, lines 2, lines 3] = lines := by
    funext i
    fin_cases i <;> rfl
  have htext : importText lines = [10].intercalate
      [lineText (lines 0), lineText (lines 1), lineText (lines 2), lineText (lines 3), []] := by
    simp [importText, List.finRange_succ, List.intercalate]
  have hsplit : (importText lines).splitOn 10 =
      [lineText (lines 0), lineText (lines 1), lineText (lines 2), lineText (lines 3), []] := by
    rw [htext]
    apply List.splitOn_intercalate
    · intro l hl
      simp only [List.mem_cons, List.not_mem_nil, or_false] at hl
      rcases hl with rfl | rfl | rfl | rfl | rfl
      · exact not_mem_lineText _
      · exact not_mem_lineText _
      · exact not_mem_lineText _
      · exact not_mem_lineText _
      · exact List.not_mem_nil
    · simp
  unfold readImportText
  rw [hsplit]
  simp only [readLine_lineText, hvec, if_true]

theorem importText_injective : Function.Injective importText := by
  intro a b h
  have ha := readImportText_importText a
  rw [h, readImportText_importText b] at ha
  exact (Option.some.inj ha).symm

theorem importText_length (lines : Fin 4 → InputLine) : (importText lines).length ≤ 160 := by
  have hline : ∀ l : InputLine, (lineText l).length ≤ 7 := by
    intro l
    have hflag : ∀ b, (flagText b).length = 1 := by
      intro b
      cases b <;> rfl
    have hoct := (octal_table l.mode).2.1
    simp [lineText, List.intercalate, hflag]
    omega
  have h0 := hline (lines 0)
  have h1 := hline (lines 1)
  have h2 := hline (lines 2)
  have h3 := hline (lines 3)
  simp [importText, List.finRange_succ]
  omega

end JaroFilter
