import JaroFilter.Contact.Append
import JaroFilter.Policy.Snapshot
import JaroFilter.Products.Restore
import JaroFilter.Sha256

/-!
# Exported contacts as a policy source (`snapshot.c:106-175`)

One bad contact must not stop a compilation: the rows of an export that are no
mailboxes are replaced by blank rows and reported. The policy parser reads the
rest, with rows split and trimmed by rules of its own.
-/

namespace JaroFilter

open Lib

/-! ### The filter -/

/-- A byte as `warning_quote` writes it (`snapshot.c:125-128`). -/
def warningByte (c : Byte) : Bytes :=
  if c < 32 ∨ 127 ≤ c ∨ c = 34 ∨ c = 92 then cstr "\\x" ++ byteHex c else [c]

/-- `warning_quote` (`snapshot.c:120-131`). -/
def warningQuote (out data : Bytes) : Option Bytes :=
  bytesAddAll cacheMax out ([34] :: data.map warningByte ++ [[34]])

/-- The variables of `contact_source`, with the warnings of the snapshot. -/
structure ContactState where
  valid : Bytes := []
  line : ℕ := 0
  bad : ℕ := 0
  warnings : Bytes
  deriving DecidableEq, Repr

/-- The test of a row (`snapshot.c:147`); the mailbox is read as a C string. -/
def acceptable (t : Bytes) : Bool :=
  decide (t.length ≤ lineMax) && validUtf8 t && (normalizeMailbox (cString t)).isSome

/-- The warning about a row (`snapshot.c:154-158`). -/
def warnRow (path : Bytes) (line : ℕ) (t warnings : Bytes) : Option Bytes := do
  let b ← bytesAdd cacheMax warnings (cstr "W_ADDRESS ")
  let b ← warningQuote b path
  let b ← bytesAdd cacheMax b
    (cstr " exported address row " ++ decimalText line ++ cstr ": ignored invalid mailbox ")
  let b ← warningQuote b (t.take 96)
  bytesAdd cacheMax b (cstr (if 96 < t.length then " (first 96 bytes shown)\n" else "\n"))

/-- A bad row: counted, and among the first eight reported (`snapshot.c:151-159`). -/
def badRow (path t : Bytes) (x : ContactState) : Option ContactState :=
  if x.bad + 1 ≤ 8 then
    (warnRow path x.line t x.warnings).map fun w => { x with bad := x.bad + 1, warnings := w }
  else some { x with bad := x.bad + 1 }

/-- A row that is not blank (`snapshot.c:147-160`). -/
def textRow (path t : Bytes) (x : ContactState) : Option ContactState :=
  if acceptable t then (bytesAdd cacheMax x.valid t).map fun v => { x with valid := v }
  else badRow path t x

/-- One row (`snapshot.c:137-162`). -/
def contactRow (path : Bytes) (x : ContactState) (row : Bytes) : Option ContactState :=
  let x := { x with line := x.line + 1 }
  let t := trimLine row
  if t = [] then (bytesAdd cacheMax x.valid [10]).map fun v => { x with valid := v }
  else do
    let x ← textRow path t x
    let v ← bytesAdd cacheMax x.valid [10]
    some { x with valid := v }

/-- The total behind the last row (`snapshot.c:163-168`). -/
def warnTotal (path : Bytes) (bad : ℕ) (warnings : Bytes) : Option Bytes :=
  if bad = 0 then some warnings
  else do
    let b ← bytesAdd cacheMax warnings (cstr "W_ADDRESS ")
    let b ← warningQuote b path
    bytesAdd cacheMax b (cstr " ignored " ++ decimalText bad ++ cstr " invalid contact" ++
      cstr (if bad = 1 then "" else "s") ++ cstr (if 8 < bad then " (first 8 listed)" else "") ++
      cstr "; original addressbook unchanged\n")

/-- `contact_source` (`snapshot.c:133-175`): the warnings and sources of the
snapshot behind the call, `none` for status 3. -/
def contactSource (kind : SourceKind) (book path : Bytes) (hbook : 0 ∉ book) (hpath : 0 ∉ path)
    (warnings : Bytes) (sources : List Source) (exported : Bytes) : Option (Bytes × List Source) := do
  let x ← (lines exported).foldlM (contactRow path) { warnings }
  let w ← warnTotal path x.bad x.warnings
  if sources.length = ruleMax then none
  else some (w, sources ++ [⟨kind, book, path, x.valid, hbook, hpath⟩])

/-! ### What it keeps -/

/-- What stands for a row in the source. -/
def keptRow (row : Bytes) : Bytes := if acceptable (trimLine row) then trimLine row else []

/-- A row that is neither blank nor kept. -/
def omitted (row : Bytes) : Bool := trimLine row != [] && !acceptable (trimLine row)

theorem bytesAdd_some {limit : ℕ} {b s b' : Bytes} (h : bytesAdd limit b s = some b') : b' = b ++ s := by
  rw [bytesAdd] at h
  split at h
  · exact (Option.some.inj h).symm
  · cases h

theorem bytesAddAll_takes {limit : ℕ} {b b' : Bytes} {pieces : List Bytes}
    (h : bytesAddAll limit b pieces = some b') : b' = b ++ pieces.flatten := by
  induction pieces generalizing b with
  | nil =>
    cases h
    simp
  | cons s pieces ih =>
    simp only [bytesAddAll] at h
    split at h
    · cases h
    · rename_i c hc
      rw [ih h, bytesAdd_some hc]
      simp

/-- What `warning_quote` appends. -/
def quotedText (data : Bytes) : Bytes := 34 :: (data.flatMap warningByte ++ [34])

theorem warningQuote_some {out data b : Bytes} (h : warningQuote out data = some b) :
    b = out ++ quotedText data := by
  rw [bytesAddAll_takes h, quotedText, List.flatMap_def]
  simp

theorem warnRow_some {path t warnings w : Bytes} {line : ℕ} (h : warnRow path line t warnings = some w) :
    ∃ listed, w = warnings ++ listed := by
  simp only [warnRow, Option.bind_eq_bind, Option.bind_eq_some_iff] at h
  obtain ⟨b1, h1, b2, h2, b3, h3, b4, h4, h5⟩ := h
  rw [bytesAdd_some h5, warningQuote_some h4, bytesAdd_some h3, warningQuote_some h2, bytesAdd_some h1]
  exact ⟨_, by simp only [List.append_assoc]; rfl⟩

/-- The state behind one row. -/
structure RowStep (x y : ContactState) (row : Bytes) : Prop where
  valid : y.valid = x.valid ++ (keptRow row ++ [10])
  bad : y.bad = x.bad + if omitted row then 1 else 0
  warnings : ∃ listed, y.warnings = x.warnings ++ listed

theorem textRow_some {path t : Bytes} {x y : ContactState} (h : textRow path t x = some y) :
    y.valid = x.valid ++ (if acceptable t then t else []) ∧
      y.bad = x.bad + (if acceptable t then 0 else 1) ∧ ∃ listed, y.warnings = x.warnings ++ listed := by
  rw [textRow] at h
  cases ha : acceptable t with
  | true =>
    rw [ha, if_pos rfl] at h
    obtain ⟨v, hv, rfl⟩ := Option.map_eq_some_iff.mp h
    exact ⟨by simp [bytesAdd_some hv], by simp, [], by simp⟩
  | false =>
    rw [ha, if_neg (by decide), badRow] at h
    split at h
    · obtain ⟨w, hw, rfl⟩ := Option.map_eq_some_iff.mp h
      exact ⟨by simp, by simp, warnRow_some hw⟩
    · cases h
      exact ⟨by simp, by simp, [], by simp⟩

theorem contactRow_some {path row : Bytes} {x y : ContactState} (h : contactRow path x row = some y) :
    RowStep x y row := by
  rw [contactRow] at h
  simp only at h
  by_cases ht : trimLine row = []
  · rw [if_pos ht] at h
    obtain ⟨v, hv, rfl⟩ := Option.map_eq_some_iff.mp h
    have hkept : keptRow row = [] := by
      rw [keptRow, ht]
      split <;> rfl
    refine ⟨?_, ?_, [], by simp⟩
    · rw [hkept, List.nil_append]
      exact bytesAdd_some hv
    · simp [omitted, ht]
  · rw [if_neg ht] at h
    simp only [Option.bind_eq_bind, Option.bind_eq_some_iff] at h
    obtain ⟨z, hz, v, hv, hy⟩ := h
    obtain ⟨hvalid, hbad, hwarn⟩ := textRow_some hz
    cases hy
    refine ⟨?_, ?_, hwarn⟩
    · simp only [bytesAdd_some hv, hvalid, keptRow, List.append_assoc]
    · rw [hbad]
      cases ha : acceptable (trimLine row) <;> simp [omitted, ht, ha]

theorem contactRows_some {path : Bytes} {rows : List Bytes} {x y : ContactState}
    (h : rows.foldlM (contactRow path) x = some y) :
    y.valid = x.valid ++ rows.flatMap (fun row => keptRow row ++ [10]) ∧
      y.bad = x.bad + rows.countP omitted ∧ ∃ listed, y.warnings = x.warnings ++ listed := by
  induction rows generalizing x with
  | nil =>
    cases h
    exact ⟨by simp, by simp, [], by simp⟩
  | cons row rows ih =>
    simp only [List.foldlM_cons, Option.bind_eq_bind, Option.bind_eq_some_iff] at h
    obtain ⟨z, hz, h⟩ := h
    obtain ⟨hvalid, hbad, hstep⟩ := contactRow_some hz
    obtain ⟨hvalid', hbad', hrest⟩ := ih h
    refine ⟨?_, ?_, ?_⟩
    · rw [hvalid', hvalid, List.flatMap_cons, List.append_assoc]
    · rw [hbad', hbad, List.countP_cons]
      omega
    · obtain ⟨l1, h1⟩ := hstep
      obtain ⟨l2, h2⟩ := hrest
      exact ⟨l1 ++ l2, by rw [h2, h1, List.append_assoc]⟩

/-- What the total appends. -/
def totalText (path : Bytes) (bad : ℕ) : Bytes :=
  if bad = 0 then []
  else cstr "W_ADDRESS " ++ quotedText path ++ (cstr " ignored " ++ decimalText bad ++
    cstr " invalid contact" ++ cstr (if bad = 1 then "" else "s") ++
    cstr (if 8 < bad then " (first 8 listed)" else "") ++ cstr "; original addressbook unchanged\n")

theorem warnTotal_some {path warnings w : Bytes} {bad : ℕ} (h : warnTotal path bad warnings = some w) :
    w = warnings ++ totalText path bad := by
  rw [warnTotal] at h
  by_cases hb : bad = 0
  · rw [if_pos hb] at h
    rw [← Option.some.inj h, totalText, if_pos hb, List.append_nil]
  · rw [if_neg hb] at h
    simp only [Option.bind_eq_bind, Option.bind_eq_some_iff] at h
    obtain ⟨b1, h1, b2, h2, h3⟩ := h
    rw [bytesAdd_some h3, warningQuote_some h2, bytesAdd_some h1, totalText, if_neg hb]
    simp only [List.append_assoc]

/-- The text of the source. -/
def keptText (exported : Bytes) : Bytes := (lines exported).flatMap fun row => keptRow row ++ [10]

theorem contactSource_some {kind : SourceKind} {book path : Bytes} {hbook : 0 ∉ book} {hpath : 0 ∉ path}
    {warnings w exported : Bytes} {sources ss : List Source}
    (h : contactSource kind book path hbook hpath warnings sources exported = some (w, ss)) :
    ss = sources ++ [⟨kind, book, path, keptText exported, hbook, hpath⟩] ∧
      ∃ listed, w = warnings ++ listed ++ totalText path ((lines exported).countP omitted) := by
  simp only [contactSource, Option.bind_eq_bind, Option.bind_eq_some_iff] at h
  obtain ⟨x, hx, w', hw, h⟩ := h
  obtain ⟨hvalid, hbad, listed, hlisted⟩ := contactRows_some hx
  split at h
  · cases h
  · cases h
    refine ⟨?_, listed, ?_⟩
    · simp only [hvalid, List.nil_append]
      rfl
    · rw [warnTotal_some hw, hlisted, hbad, Nat.zero_add]

/-! ### What the parser reads back -/

theorem mem_lines {s l : Bytes} (h : l ∈ lines s) : 10 ∉ l := by
  induction s generalizing l with
  | nil => cases h
  | cons c s ih =>
    simp only [lines] at h
    split at h
    · obtain rfl | h := List.mem_cons.mp h
      · exact List.not_mem_nil
      · exact ih h
    · rename_i hc
      have hhead : ∀ x : Bytes, 10 ∉ x → 10 ∉ c :: x := fun x hx hm =>
        (List.mem_cons.mp hm).elim (fun he => hc he.symm) hx
      split at h
      · rw [List.mem_singleton.mp h]
        exact hhead [] List.not_mem_nil
      · rename_i x xs hs
        rw [hs] at ih
        obtain rfl | h := List.mem_cons.mp h
        · exact hhead x (ih (by simp))
        · exact ih (by simp [h])

theorem mem_trimLine {row : Bytes} {c : Byte} (h : c ∈ trimLine row) : c ∈ row :=
  (List.dropWhile_sublist _).subset ((List.rdropWhile_prefix _ _).subset h)

theorem mem_keptRow {row : Bytes} {c : Byte} (h : c ∈ keptRow row) : c ∈ row := by
  rw [keptRow] at h
  split at h
  · exact mem_trimLine h
  · cases h

theorem trimLine_head (row : Bytes) : ∀ c ∈ (trimLine row).head?, isBlank c = false := by
  intro c hc
  obtain ⟨rest, hrest⟩ : trimLine row <+: row.dropWhile isBlank := List.rdropWhile_prefix _ _
  cases ht : trimLine row with
  | nil =>
    rw [ht] at hc
    cases hc
  | cons d t =>
    rw [ht] at hc hrest
    obtain rfl : d = c := Option.some.inj hc
    have hne : row.dropWhile isBlank ≠ [] := by simp [← hrest]
    have hhead := List.head_dropWhile_not isBlank hne
    simpa [← hrest] using hhead

theorem trimLine_last (row : Bytes) : ∀ c ∈ (trimLine row).getLast?, isBlank c = false ∧ c ≠ 13 := by
  intro c hc
  have hne : trimLine row ≠ [] := by
    intro he
    rw [he] at hc
    cases hc
  have hlast := List.rdropWhile_last_not (fun c => isBlank c || c == 13) (row.dropWhile isBlank) hne
  rw [List.getLast?_eq_some_getLast hne] at hc
  obtain rfl : (trimLine row).getLast hne = c := Option.some.inj hc
  simpa [trimLine] using hlast

theorem lines_keptText (exported : Bytes) : lines (keptText exported) = (lines exported).map keptRow := by
  have hjoin := @lines_join ((lines exported).map keptRow) (by
    intro l hl
    obtain ⟨row, hrow, rfl⟩ := List.mem_map.mp hl
    exact fun hm => mem_lines hrow (mem_keptRow hm))
  rwa [List.flatMap_map] at hjoin

/-- The predicate of a well-formed row. -/
def rowPredicate (t : Bytes) : Option Bytes :=
  if t.length ≤ lineMax ∧ validUtf8 t = true then (normalizeMailbox t).map foldBytes else none

/-- The record of a row, by its number in the export. -/
def contactRule (s : Source) (number : ℕ) (predicate : Bytes) : Rule :=
  if s.kind = .known then
    newRule (some s) number (cstr "known") predicate (cstr "known") .address 5 fieldFrom
  else newRule (some s) number (cstr "blacklist") predicate (cstr "zz.blacklist") .address 1 fieldFrom

theorem acceptable_iff (t : Bytes) : acceptable t = true ↔ (rowPredicate t).isSome = true := by
  rw [acceptable, rowPredicate]
  by_cases hu : validUtf8 t = true
  · rw [cString_eq_self (validUtf8_not_nul hu)]
    by_cases hl : t.length ≤ lineMax <;> simp [hu, hl]
  · simp [hu]

/-- A kept row is read as its record, any other row as a blank one. -/
theorem parseLine_keptRow {s : Source} (hk : s.kind = .known ∨ s.kind = .blacklist) (number : ℕ)
    (row : Bytes) : (keptRow row).length ≤ lineMax ∧ validUtf8 (keptRow row) = true ∧
      chopCr (keptRow row) = keptRow row ∧ parseLine s number (keptRow row) =
        .ok ((rowPredicate (trimLine row)).map (contactRule s number)) := by
  have hparse : ∀ line, parseLine s number line = parseContact s number line := fun line => if_pos hk
  rw [hparse]
  by_cases ha : acceptable (trimLine row) = true
  · have hkept : keptRow row = trimLine row := if_pos ha
    have hparts := ha
    simp only [acceptable, Bool.and_eq_true, decide_eq_true_eq] at hparts
    obtain ⟨⟨hlen, hutf8⟩, hmailbox⟩ := hparts
    rw [cString_eq_self (validUtf8_not_nul hutf8)] at hmailbox
    obtain ⟨mailbox, hmailbox⟩ := Option.isSome_iff_exists.mp hmailbox
    have htrim : trimBlanks (trimLine row) = trimLine row :=
      trimBlanks_of_ends (trimLine_head row) fun c hc => (trimLine_last row c hc).1
    have hne : trimLine row ≠ [] := by
      intro he
      rw [he, (by decide : normalizeMailbox [] = none)] at hmailbox
      cases hmailbox
    rw [hkept]
    refine ⟨hlen, hutf8, if_neg fun he => (trimLine_last row 13 he).2 rfl, ?_⟩
    rw [parseContact, htrim, if_neg hne, hmailbox, rowPredicate, if_pos ⟨hlen, hutf8⟩, hmailbox]
    simp only [Option.map_some, contactRule]
    split <;> rfl
  · have hkept : keptRow row = [] := if_neg ha
    have hnone : rowPredicate (trimLine row) = none := by
      rw [acceptable_iff] at ha
      simpa using ha
    rw [hkept, hnone]
    exact ⟨Nat.zero_le _, rfl, rfl, rfl⟩

theorem parseLines_kept {s : Source} (hk : s.kind = .known ∨ s.kind = .blacklist) (index number : ℕ)
    (rows : List Bytes) (entries : List Entry) :
    ∃ result, parseLines s index number (rows.map keptRow) entries = .ok result := by
  induction rows generalizing number entries with
  | nil => exact ⟨entries, rfl⟩
  | cons row rows ih =>
    obtain ⟨hlen, hutf8, hchop, hline⟩ := parseLine_keptRow hk (number + 1) row
    rw [List.map_cons, parseLines]
    simp only [hchop, hline, if_neg (Nat.not_lt.mpr hlen), hutf8, Bool.true_eq_false, if_false]
    cases rowPredicate (trimLine row) with
    | none => exact ih _ _
    | some p => exact ih _ _

/-- The records of an export: one for each well-formed row, numbered as in the
export. -/
def exportRecords (s : Source) (exported : Bytes) : List Rule :=
  ((lines exported).zipIdx 1).filterMap fun l => (rowPredicate (trimLine l.1)).map (contactRule s l.2)

theorem records_kept {s : Source} (hk : s.kind = .known ∨ s.kind = .blacklist) {exported : Bytes}
    (hdata : s.data = keptText exported) : records s = exportRecords s exported := by
  rw [records, hdata, lines_keptText, exportRecords, List.zipIdx_map, List.filterMap_map]
  refine List.filterMap_congr fun l _ => ?_
  obtain ⟨-, -, hchop, hline⟩ := parseLine_keptRow hk l.2 l.1
  simp only [Function.comp_apply, Prod.map_fst, Prod.map_snd, id_eq, hchop, hline]

/-! ### The size of the source -/

/-- Every row with a line feed behind it: the export, but for a line feed that
its last row may lack. -/
theorem lines_flatMap (s : Bytes) : (lines s).flatMap (· ++ [10]) =
    s ++ if s = [] ∨ s.getLast? = some 10 then [] else [10] := by
  induction s with
  | nil => rfl
  | cons c s ih =>
    simp only [lines]
    by_cases hc : c = 10
    · rw [if_pos hc, List.flatMap_cons, ih]
      cases s with
      | nil => simp [hc]
      | cons d s => simp [hc, List.getLast?_cons_cons]
    · rw [if_neg hc]
      cases hl : lines s with
      | nil =>
        rw [hl, List.flatMap_nil] at ih
        have hs : s = [] := by
          cases s with
          | nil => rfl
          | cons d s => simp at ih
        simp [hs, hc]
      | cons x xs =>
        have hs : s ≠ [] := by
          rintro rfl
          cases hl
        obtain ⟨d, t, rfl⟩ := List.exists_cons_of_ne_nil hs
        rw [hl, List.flatMap_cons] at ih
        simp only [List.flatMap_cons, List.cons_append, ih, List.getLast?_cons_cons]
        simp

theorem keptRow_sublist (row : Bytes) : (keptRow row).Sublist row := by
  rw [keptRow]
  split
  · exact (List.rdropWhile_prefix _ _).sublist.trans (List.dropWhile_sublist _)
  · exact List.nil_sublist row

theorem kept_length_le (rows : List Bytes) :
    (rows.flatMap fun row => keptRow row ++ [10]).length ≤ (rows.flatMap (· ++ [10])).length := by
  induction rows with
  | nil => exact Nat.le_refl 0
  | cons row rows ih =>
    have hrow := (keptRow_sublist row).length_le
    simp only [List.flatMap_cons, List.length_append, List.length_singleton] at ih ⊢
    omega

theorem kept_length_lt {rows : List Bytes} (h : ∃ row ∈ rows, keptRow row ≠ row) :
    (rows.flatMap fun row => keptRow row ++ [10]).length < (rows.flatMap (· ++ [10])).length := by
  obtain ⟨row, hrow, hne⟩ := h
  obtain ⟨a, b, rfl⟩ := List.append_of_mem hrow
  have hlt : (keptRow row).length < row.length := by
    have hle := (keptRow_sublist row).length_le
    have hneq : (keptRow row).length ≠ row.length := fun he => hne ((keptRow_sublist row).eq_of_length he)
    omega
  have ha := kept_length_le a
  have hb := kept_length_le b
  simp only [List.flatMap_append, List.flatMap_cons, List.length_append, List.length_singleton] at ha hb ⊢
  omega

/-- The source stays within the limit of the export, unless the export fills it,
its last row lacks a line feed and every row is kept whole. -/
theorem keptText_fits {exported : Bytes} (h : exported.length ≤ inputMax)
    (hroom : exported.length < inputMax ∨ exported.getLast? = some 10 ∨
      ∃ row ∈ lines exported, keptRow row ≠ row) : (keptText exported).length ≤ inputMax := by
  have hle := kept_length_le (lines exported)
  have hlen := congrArg List.length (lines_flatMap exported)
  have hpad : (if exported = [] ∨ exported.getLast? = some 10 then [] else [(10 : Byte)]).length ≤ 1 := by
    split <;> simp
  rw [List.length_append] at hlen
  rw [keptText]
  obtain hroom | hroom | hroom := hroom
  · omega
  · rw [if_pos (.inr hroom), List.length_nil] at hlen
    omega
  · have hlt := kept_length_lt hroom
    omega

/-! ### The parse of the source -/

/-- Without expressions a snapshot has at most too many rules. -/
theorem resolve_limit {posix : Posix} {entries : List Entry} {f : Failure}
    (h : resolve posix entries = .error f) (hk : ∀ e ∈ entries, e.rule.kind ≠ .ere) :
    f.error.code = .eRuleLimit := by
  rw [resolve] at h
  simp only at h
  split at h
  · cases h
    rfl
  · rw [finishRules_of_compiled] at h
    · cases h
    · intro e he hek
      obtain ⟨e0, he0, heq⟩ := mem_dedupe (mem_qsort.mp he)
      have hkind : e.unnumbered.rule.kind = e0.unnumbered.rule.kind := by rw [heq]
      exact absurd (hkind.symm.trans hek) (hk e0 he0)

theorem parseSources_kept {s : Source} (hk : s.kind = .known ∨ s.kind = .blacklist) {exported : Bytes}
    (hdata : s.data = keptText exported) : ∃ entries, parseSources [(s, 0)] [] = .ok entries ∧
      entries.map Entry.rule = exportRecords s exported := by
  obtain ⟨entries, hlines⟩ := parseLines_kept hk 0 0 (lines exported) []
  rw [← lines_keptText, ← hdata] at hlines
  have hparse : parseSources [(s, 0)] [] = .ok entries := by
    rw [parseSources, hlines]
    rfl
  refine ⟨entries, hparse, ?_⟩
  have heq := parseSources_eq hparse
  rw [heq, List.nil_append, enter_rules, List.map_map]
  simp [Function.comp_def, records_kept hk hdata]

theorem contactRule_kind (s : Source) (number : ℕ) (p : Bytes) : (contactRule s number p).kind = .address := by
  rw [contactRule]
  split <;> rfl

theorem policyParse_kept {posix : Posix} {s : Source} (hk : s.kind = .known ∨ s.kind = .blacklist)
    (hname : s.identity ≠ []) {exported : Bytes} (hdata : s.data = keptText exported)
    (hsize : s.data.length ≤ inputMax) {f : Failure} (h : policyParse posix [s] = .error f) :
    f.error.code = .eRuleLimit := by
  obtain ⟨entries, hparse, hrules⟩ := parseSources_kept hk hdata
  have hcheck : checkSources [(s, 0)] = .ok () := by
    rw [checkSources, checkSource, if_neg hname, if_neg (Nat.not_lt.mpr hsize)]
    rfl
  have hsort : qsort compareSources [(s, 0)] = [(s, 0)] := rfl
  have hresolve : parseRules posix [s] = resolve posix (appendBuiltins entries) := by
    simp only [parseRules, List.zipIdx_cons, List.zipIdx_nil, hcheck, hsort, hparse]
    rfl
  rw [policyParse, hresolve] at h
  cases hr : resolve posix (appendBuiltins entries) with
  | ok rules =>
    rw [hr] at h
    cases h
  | error g =>
    rw [hr] at h
    cases h
    refine resolve_limit hr fun e he hek => ?_
    have hbuiltin : bounceRule.kind ≠ .ere ∧ spamRule.kind ≠ .ere ∧ unsortedRule.kind ≠ .ere := by decide
    obtain he | he | he | he := mem_appendBuiltins he
    · have hmem : e.rule ∈ exportRecords s exported := hrules ▸ List.mem_map_of_mem he
      obtain ⟨l, -, hl⟩ := List.mem_filterMap.mp hmem
      obtain ⟨p, -, hp⟩ := Option.map_eq_some_iff.mp hl
      rw [← hp, contactRule_kind] at hek
      cases hek
    · exact hbuiltin.1 (he ▸ hek)
    · exact hbuiltin.2.1 (he ▸ hek)
    · exact hbuiltin.2.2 (he ▸ hek)

/-! ### One bad contact among good ones -/

/-- A row of at most 64 KiB that spells a mailbox. -/
def WellFormed (t l d : Bytes) : Prop :=
  t.length ≤ lineMax ∧ validUtf8 t = true ∧ IsMailbox l d ∧ Spells t l d

theorem rowPredicate_iff {t p : Bytes} :
    rowPredicate t = some p ↔ ∃ l d, WellFormed t l d ∧ p = foldBytes (canonical l d) := by
  rw [rowPredicate]
  constructor
  · intro h
    split at h
    · rename_i hlen
      obtain ⟨m, hm, rfl⟩ := Option.map_eq_some_iff.mp h
      obtain ⟨-, l, d, hmail, hspell, rfl⟩ := normalizeMailbox_eq_some_iff.mp hm
      exact ⟨l, d, ⟨hlen.1, hlen.2, hmail, hspell⟩, rfl⟩
    · cases h
  · rintro ⟨l, d, ⟨hlen, hutf8, hmail, hspell⟩, rfl⟩
    rw [if_pos ⟨hlen, hutf8⟩, normalizeMailbox_eq_some_iff.mpr ⟨hlen, l, d, hmail, hspell, rfl⟩]
    rfl

theorem omitted_iff (row : Bytes) : omitted row = true ↔
    trimLine row ≠ [] ∧ ¬ ∃ l d, WellFormed (trimLine row) l d := by
  have hsome : (rowPredicate (trimLine row)).isSome = true ↔ ∃ l d, WellFormed (trimLine row) l d := by
    rw [Option.isSome_iff_exists]
    constructor
    · rintro ⟨p, hp⟩
      obtain ⟨l, d, hw, -⟩ := rowPredicate_iff.mp hp
      exact ⟨l, d, hw⟩
    · rintro ⟨l, d, hw⟩
      exact ⟨_, rowPredicate_iff.mpr ⟨l, d, hw, rfl⟩⟩
  rw [← hsome, ← acceptable_iff, omitted]
  simp

/-- The source of an export is parsed without an error but that of too many
rules; its records are the well-formed rows, each under its number in the
export, and the total reported is that of the rows omitted. -/
theorem exported_contacts_survive {kind : SourceKind} (hk : kind = .known ∨ kind = .blacklist)
    {book path : Bytes} (hbook : 0 ∉ book) (hpath : 0 ∉ path) (hname : book ≠ [])
    {warnings w exported : Bytes} {sources ss : List Source}
    (h : contactSource kind book path hbook hpath warnings sources exported = some (w, ss))
    (hlen : exported.length ≤ inputMax) (hroom : exported.length < inputMax ∨
      exported.getLast? = some 10 ∨ ∃ row ∈ lines exported, keptRow row ≠ row) :
    ∃ s, ss = sources ++ [s] ∧
      (∀ posix f, policyParse posix [s] = .error f → f.error.code = .eRuleLimit) ∧
      (∃ entries, parseSources [(s, 0)] [] = .ok entries ∧
        entries.map Entry.rule = ((lines exported).zipIdx 1).filterMap fun l =>
          (rowPredicate (trimLine l.1)).map (contactRule s l.2)) ∧
      (∀ t p, rowPredicate t = some p ↔ ∃ l d, WellFormed t l d ∧ p = foldBytes (canonical l d)) ∧
      (∀ number p, (contactRule s number p).predicate = p ∧ (contactRule s number p).line = number) ∧
      (∀ row, omitted row = true ↔ trimLine row ≠ [] ∧ ¬ ∃ l d, WellFormed (trimLine row) l d) ∧
      ∃ listed, w = warnings ++ listed ++ totalText path ((lines exported).countP omitted) := by
  obtain ⟨rfl, hwarn⟩ := contactSource_some h
  refine ⟨_, rfl, fun posix f hf => ?_, parseSources_kept hk rfl, fun t p => rowPredicate_iff,
    fun number p => ?_, omitted_iff, hwarn⟩
  · exact policyParse_kept hk hname rfl (keptText_fits hlen hroom) hf
  · rw [contactRule]
    split <;> exact ⟨rfl, rfl⟩

/-- One bad row between two good ones. -/
def sampleExport : Bytes := cstr "a@b.c\nbad\n\"x y\"@d.e\r\n"

theorem exported_contacts_survive_sample : ∃ w s,
    contactSource .known (cstr "whitelist.abook") (cstr "/w") (by decide) (by decide) [] []
      sampleExport = some (w, [s]) ∧
    (∀ posix f, policyParse posix [s] = .error f → f.error.code = .eRuleLimit) ∧
    (∃ entries, parseSources [(s, 0)] [] = .ok entries ∧
      entries.map Entry.rule = ((lines sampleExport).zipIdx 1).filterMap fun l =>
        (rowPredicate (trimLine l.1)).map (contactRule s l.2)) ∧
    ∃ listed, w = listed ++ totalText (cstr "/w") 1 := by
  have hsome : (contactSource .known (cstr "whitelist.abook") (cstr "/w") (by decide) (by decide) [] []
      sampleExport).isSome = true := by decide
  have hone : (lines sampleExport).countP omitted = 1 := by decide
  obtain ⟨⟨w, ss⟩, h⟩ := Option.isSome_iff_exists.mp hsome
  obtain ⟨s, rfl, hparse, hentries, -, -, -, listed, hlisted⟩ :=
    exported_contacts_survive (.inl rfl) _ _ (by decide) h (by decide) (.inl (by decide))
  rw [hone, List.nil_append] at hlisted
  exact ⟨w, s, h, hparse, hentries, listed, hlisted⟩

/-- Blank rows up to the limit, with a last row that lacks its line feed. -/
def fullExport : Bytes := List.replicate (inputMax - 5) 10 ++ cstr "a@b.c"

theorem lines_blank (n : ℕ) (s : Bytes) :
    lines (List.replicate n 10 ++ s) = List.replicate n [] ++ lines s := by
  induction n with
  | zero => rfl
  | succ n ih =>
    rw [List.replicate_succ, List.cons_append, lines, if_pos rfl, ih, List.replicate_succ, List.cons_append]

theorem contactRows_blank (path : Bytes) (n : ℕ) (x : ContactState)
    (h : x.valid.length + n ≤ cacheMax) : ∃ y, (List.replicate n []).foldlM (contactRow path) x = some y ∧
      y.valid.length = x.valid.length + n ∧ y.bad = x.bad ∧ y.warnings = x.warnings := by
  induction n generalizing x with
  | zero => exact ⟨x, rfl, rfl, rfl, rfl⟩
  | succ n ih =>
    have hstep : contactRow path x [] = some { x with line := x.line + 1, valid := x.valid ++ [10] } := by
      have hadd : bytesAdd cacheMax x.valid [10] = some (x.valid ++ [10]) :=
        if_pos ⟨by omega, by rw [List.length_singleton]; omega⟩
      rw [contactRow]
      simp only [hadd]
      exact if_pos rfl
    obtain ⟨y, hy, hlen, hbad, hwarn⟩ := ih { x with line := x.line + 1, valid := x.valid ++ [10] } (by
      simp only [List.length_append, List.length_singleton]
      omega)
    refine ⟨y, ?_, ?_, hbad, hwarn⟩
    · simp only [List.replicate_succ, List.foldlM_cons, hstep, Option.bind_eq_bind, Option.bind_some, hy]
    · simp only [List.length_append, List.length_singleton] at hlen
      omega

theorem full_export_refused : ∃ w s, fullExport.length ≤ inputMax ∧
    contactSource .known (cstr "whitelist.abook") (cstr "/w") (by decide) (by decide) [] []
      fullExport = some (w, [s]) ∧
    ∀ posix, ∃ f, policyParse posix [s] = .error f ∧ f.error.code = .eInputLimit := by
  obtain ⟨n, hn⟩ : ∃ n, n = inputMax - 5 := ⟨_, rfl⟩
  have hfive : 5 ≤ inputMax := by decide
  have hcache : inputMax + 1 ≤ cacheMax := by decide
  have hrow : (cstr "a@b.c").length = 5 ∧ lines (cstr "a@b.c") = [cstr "a@b.c"] ∧
      trimLine (cstr "a@b.c") = cstr "a@b.c" ∧ acceptable (cstr "a@b.c") = true ∧
      cstr "a@b.c" ≠ [] := by decide
  obtain ⟨hlen, hlines, htrim, hacc, hne⟩ := hrow
  obtain ⟨y, hy, hylen, hbad, hwarn⟩ := contactRows_blank (cstr "/w") n { warnings := [] } (by
    rw [List.length_nil]
    omega)
  rw [List.length_nil] at hylen
  have hadd1 : bytesAdd cacheMax y.valid (cstr "a@b.c") = some (y.valid ++ cstr "a@b.c") :=
    if_pos ⟨by omega, by omega⟩
  have hadd2 : bytesAdd cacheMax (y.valid ++ cstr "a@b.c") [10] = some (y.valid ++ cstr "a@b.c" ++ [10]) :=
    if_pos ⟨by rw [List.length_append]; omega, by rw [List.length_append, List.length_singleton]; omega⟩
  have hx : contactRow (cstr "/w") y (cstr "a@b.c") =
      some { y with line := y.line + 1, valid := y.valid ++ cstr "a@b.c" ++ [10] } := by
    rw [contactRow]
    simp only [htrim, if_neg hne, textRow, hacc, if_true, hadd1, hadd2, Option.map_some,
      Option.bind_eq_bind, Option.bind_some]
  have hrows : (lines fullExport).foldlM (contactRow (cstr "/w")) { warnings := [] } =
      some { y with line := y.line + 1, valid := y.valid ++ cstr "a@b.c" ++ [10] } := by
    rw [fullExport, ← hn, lines_blank, hlines, List.foldlM_append, hy]
    simp only [Option.bind_eq_bind, Option.bind_some, List.foldlM_cons, List.foldlM_nil, hx]
    rfl
  have htotal : warnTotal (cstr "/w") y.bad y.warnings = some y.warnings := if_pos hbad
  have hsource : contactSource .known (cstr "whitelist.abook") (cstr "/w") (by decide) (by decide) [] []
      fullExport = some (y.warnings, [⟨.known, cstr "whitelist.abook", cstr "/w",
        y.valid ++ cstr "a@b.c" ++ [10], by decide, by decide⟩]) := by
    simp only [contactSource, hrows, htotal, Option.bind_eq_bind, Option.bind_some]
    exact if_neg (by decide)
  have hsize : inputMax < (y.valid ++ cstr "a@b.c" ++ [10]).length := by
    rw [List.length_append, List.length_append, List.length_singleton]
    omega
  refine ⟨_, _, ?_, hsource, fun posix =>
    ⟨(fault .eInputLimit "policy input exceeds 64 MiB").fail (some 0) 0, ?_, rfl⟩⟩
  · rw [fullExport, ← hn, List.length_append, List.length_replicate, hlen]
    omega
  · have hname : cstr "whitelist.abook" ≠ [] := by decide
    simp only [policyParse, parseRules, List.zipIdx_cons, List.zipIdx_nil, checkSources, checkSource,
      if_neg hname, if_pos hsize]
    rfl

end JaroFilter
