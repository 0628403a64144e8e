import JaroFilter.Batch.Attempts
import JaroFilter.Generation.Disk
import JaroFilter.Header.Reader
import JaroFilter.Products.Restore

/-!
# Decision records (`jaro-filter.c:226-250`, `zlibs/filter-native:5-69`)

The batch writes a header of two fields and eleven fields for every occurrence,
each with a NUL behind it. A shell function splits the stream at the NULs and
checks every record before it shows one. What the checks ask of the rules of a
cached policy and of error codes, the validator and the compiler's tables give.
-/

namespace JaroFilter

open Lib

/-! ### The producer -/

/-- `field` (`jaro-filter.c:226`). -/
def field (s : Bytes) : Bytes := s ++ [0]

/-- The fields of `record` (`jaro-filter.c:231`). -/
def record (index : ℕ) (path : Bytes) (r : Option Rule) (localPath : Option Bytes) (status : Bytes)
    (detail : Option Bytes) : List Bytes :=
  let error := status == cstr "error"
  [decimalText index, path, (r.map Rule.id).getD [],
    if r.isSome && !error && status != cstr "noop" then cstr "move" else cstr "none",
    if error then [] else (r.map Rule.logical).getD [],
    if error then [] else localPath.getD [],
    if error then [] else (r.map Rule.sieve).getD [],
    status, (r.map Rule.source).getD [], decimalText ((r.map Rule.line).getD 0), detail.getD []]

/-- The status that `emit_decision` writes. -/
def decisionStatus (apply : Bool) (d : Decision) : String :=
  if d.rc ≠ 0 then "error" else if d.noop then "noop" else if apply then "moved" else "classified"

/-- The record of `emit_decision` (`jaro-filter.c:354-367`); `path` is the item's. -/
def decisionRow (apply : Bool) (root path : Bytes) (d : Decision) : List Bytes :=
  record (d.item + 1) path d.winner
    (if d.rc = 0 then d.winner.map fun r => root ++ [47] ++ r.localDir else none)
    (cstr (decisionStatus apply d)) (if d.rc = 0 then none else d.detail)

/-- The bytes of a run's standard output. -/
def decisionStream (id : Bytes) (rows : List (List Bytes)) : Bytes :=
  field (cstr "JFD1") ++ field id ++ rows.flatMap fun row => row.flatMap field

/-! ### The consumer -/

/-- `fields=("${(@0)stream}")`. -/
def splitNul (s : Bytes) : List Bytes := s.splitOn 0

/-- The records of a stream that is framed as one (`filter-native:10-22`). -/
def readStream (stream generation : Bytes) : Option (List (List Bytes)) :=
  let fields := splitNul stream
  let n := (fields.length - 3) / 11
  if fields.length < 3 ∨ fields.getD 0 [] ≠ cstr "JFD1" ∨ fields.getD 1 [] ≠ generation ∨
      fields.getLast? ≠ some [] ∨ (fields.length - 3) % 11 ≠ 0 ∨ 100000 < n then none
  else some ((List.range n).map fun i => (fields.drop (2 + i * 11)).take 11)

/-- The pattern of a rule identity. -/
def isRuleId (v : Bytes) : Bool :=
  v == cstr "builtin:bounce" || v == cstr "builtin:spam" || v == cstr "builtin:unsorted" ||
    [cstr "r", cstr "known", cstr "blacklist", cstr "own"].any fun k =>
      v.take (k.length + 1) == k ++ [58] && (v.drop (k.length + 1)).length == 64 &&
        (v.drop (k.length + 1)).all isLowerHex

/-- The pattern `0|[1-9][0-9]#`. -/
def isLineNumber (v : Bytes) : Bool :=
  v == [48] || v.head?.any (fun c => 49 ≤ c && c ≤ 57) && v.all fun c => 48 ≤ c && c ≤ 57

/-- The pattern `[A-Z][A-Z0-9_]#`. -/
def isErrorCode (v : Bytes) : Bool :=
  v.head?.any (fun c => 65 ≤ c && c ≤ 90) &&
    v.all fun c => (65 ≤ c && c ≤ 90) || (48 ≤ c && c ≤ 57) || c == 95

/-- The record is one of an error. -/
def isErrorRow (row : List Bytes) : Bool := row.getD 7 [] == cstr "error"

/-- The checks of one record (`filter-native:23-45`); `i` counts from 1. -/
def rowAccepted (apply : Bool) (i : ℕ) (row : List Bytes) : Bool :=
  let f (k : ℕ) : Bytes := row.getD k []
  f 0 == decimalText i && f 1 != [] && isLineNumber (f 9) && (f 3 == cstr "move" || f 3 == cstr "none") &&
    (f 7 == cstr "classified" || f 7 == cstr "moved" || f 7 == cstr "noop" || f 7 == cstr "error") &&
    (f 2 == [] || isRuleId (f 2)) &&
    if isErrorRow row then
      f 3 == cstr "none" && f 4 == [] && f 5 == [] && f 6 == [] && isErrorCode (f 10)
    else
      f 2 != [] && f 4 != [] && (f 5).head? == some 47 && f 6 != [] && f 10 == [] &&
        !(f 7 == cstr "noop" && f 3 != cstr "none") && !(f 7 != cstr "noop" && f 3 != cstr "move") &&
        !(!apply && f 7 == cstr "moved") && !(apply && f 7 == cstr "classified")

/-- The records of a stream that passes every check. -/
def acceptedRows (stream generation : Bytes) (apply : Bool) : Option (List (List Bytes)) :=
  match readStream stream generation with
  | none => none
  | some rows => if rows.zipIdx.all fun x => rowAccepted apply (x.2 + 1) x.1 then some rows else none

/-- The status of `native_filter_records` without observations to compare. -/
def nativeFilterRecords (stream : Bytes) (helper : ℕ) (generation : Bytes) (apply : Bool) : ℕ :=
  match acceptedRows stream generation apply with
  | none => if helper ≠ 0 then helper else 2
  | some rows => if helper ≠ 0 then helper else if rows.any isErrorRow then 7 else 0

/-! ### The framing -/

theorem splitNul_fields {fs : List Bytes} (h : ∀ f ∈ fs, 0 ∉ f) : splitNul (fs.flatMap field) = fs ++ [[]] := by
  induction fs with
  | nil => rfl
  | cons f fs ih =>
    have hf : ∀ c ∈ f, (c == 0) = false := by
      intro c hc
      rw [beq_eq_false_iff_ne]
      rintro rfl
      exact h f (by simp) hc
    have hrest := ih fun g hg => h g (by simp [hg])
    rw [List.flatMap_cons, field, List.append_assoc, List.singleton_append, splitNul, List.splitOn,
      List.splitOnP_append_cons_of_forall_mem hf 0 (by simp)]
    exact congrArg (f :: ·) hrest

theorem take_drop_flatten {rows : List (List Bytes)} (h : ∀ row ∈ rows, row.length = 11)
    (tail : List Bytes) {i : ℕ} (hi : i < rows.length) :
    ((rows.flatten ++ tail).drop (i * 11)).take 11 = rows[i] := by
  induction rows generalizing i with
  | nil => cases hi
  | cons row rows ih =>
    have hlen := h row (by simp)
    rw [List.flatten_cons, List.append_assoc]
    cases i with
    | zero => simp [hlen]
    | succ i =>
      have hdrop : (row ++ (rows.flatten ++ tail)).drop ((i + 1) * 11) =
          (rows.flatten ++ tail).drop (i * 11) := by
        have hskip : (i + 1) * 11 = row.length + i * 11 := by omega
        rw [hskip, ← List.drop_drop, List.drop_left]
      rw [hdrop]
      exact ih (fun r hr => h r (by simp [hr])) (by simpa using hi)

theorem readStream_decisions {id : Bytes} {rows : List (List Bytes)} (hid : 0 ∉ id)
    (hlen : ∀ row ∈ rows, row.length = 11) (hnul : ∀ row ∈ rows, ∀ f ∈ row, 0 ∉ f)
    (hcount : rows.length ≤ 100000) : readStream (decisionStream id rows) id = some rows := by
  have hstream : decisionStream id rows = ([cstr "JFD1", id] ++ rows.flatten).flatMap field := by
    simp only [decisionStream, List.flatMap_append, List.flatMap_cons, List.flatMap_nil,
      List.append_nil, List.append_assoc, ← List.flatMap_id, List.flatMap_assoc, id_eq]
  have hsplit : splitNul (decisionStream id rows) = cstr "JFD1" :: id :: (rows.flatten ++ [[]]) := by
    rw [hstream, splitNul_fields]
    · rfl
    · intro f hf
      simp only [List.cons_append, List.nil_append, List.mem_cons, List.mem_flatten] at hf
      rcases hf with rfl | rfl | ⟨row, hrow, hf⟩
      · decide
      · exact hid
      · exact hnul row hrow f hf
  have hflat : rows.flatten.length = rows.length * 11 := by
    rw [List.length_flatten, List.map_congr_left hlen, List.map_const', List.sum_replicate,
      smul_eq_mul]
  have hn : (splitNul (decisionStream id rows)).length - 3 = rows.length * 11 := by
    rw [hsplit]
    simp [hflat]
  have hcheck : ¬((splitNul (decisionStream id rows)).length < 3 ∨
      (splitNul (decisionStream id rows)).getD 0 [] ≠ cstr "JFD1" ∨
      (splitNul (decisionStream id rows)).getD 1 [] ≠ id ∨
      (splitNul (decisionStream id rows)).getLast? ≠ some [] ∨
      ((splitNul (decisionStream id rows)).length - 3) % 11 ≠ 0 ∨
      100000 < ((splitNul (decisionStream id rows)).length - 3) / 11) := by
    rw [hn, hsplit]
    have hlast : (cstr "JFD1" :: id :: (rows.flatten ++ [[]])).getLast? = some [] := by
      rw [← List.cons_append, ← List.cons_append, List.getLast?_concat]
    simp only [hlast, List.getD_cons_zero, List.getD_cons_succ, List.length_cons, List.length_append,
      ne_eq, not_true_eq_false, false_or, not_or, List.length_nil]
    omega
  rw [readStream, if_neg hcheck, hn, Nat.mul_div_cancel _ (by decide)]
  congr 1
  apply List.ext_getElem
  · simp
  · intro i h1 h2
    rw [List.getElem_map, List.getElem_range, hsplit]
    have hskip : 2 + i * 11 = i * 11 + 1 + 1 := by omega
    rw [hskip, List.drop_succ_cons, List.drop_succ_cons]
    exact take_drop_flatten hlen _ h2

/-! ### Rules of a restored policy -/

/-- What a record needs of the texts of a rule. -/
structure Shown (r : Rule) : Prop where
  id : isRuleId r.id = true
  id_ne : r.id ≠ []
  logical : r.logical ≠ []
  sieve : r.sieve ≠ []
  texts : ∀ s ∈ [r.id, r.logical, r.localDir, r.sieve, r.source], 0 ∉ s

theorem isRuleId_of_cacheId {v : Bytes} (h : cacheId v = true) : isRuleId v = true ∧ v ≠ [] := by
  unfold cacheId at h
  dsimp only at h
  split at h
  · next heq =>
    rcases heq with rfl | rfl | rfl
    · decide
    · decide
    · decide
  · split at h
    · cases h
    · next hlen =>
      rw [not_or, not_not] at hlen
      obtain ⟨hne, h65⟩ := hlen
      simp only [Bool.and_eq_true] at h
      obtain ⟨hname, hhex⟩ := h
      generalize hk : v.takeWhile (· != 58) = k at hne h65 hname hhex
      have hsplit : k ++ v.dropWhile (· != 58) = v := by
        rw [← hk]
        exact List.takeWhile_append_dropWhile
      obtain ⟨rest, hrest⟩ : ∃ rest, v.dropWhile (· != 58) = 58 :: rest := by
        cases hd : v.dropWhile (· != 58) with
        | nil =>
          rw [hd, List.append_nil] at hsplit
          exact absurd (congrArg List.length hsplit) hne
        | cons c rest =>
          have hc := List.head?_dropWhile_not (· != 58) v
          rw [hd] at hc
          have hc : c = 58 := by simpa using hc
          exact ⟨rest, by rw [hc]⟩
      rw [hrest] at hsplit
      have htake : v.take (k.length + 1) = k ++ [58] := by
        rw [← hsplit, List.append_cons, List.take_left' (by simp)]
      have hdrop : v.drop (k.length + 1) = rest := by
        rw [← hsplit, List.append_cons, List.drop_left' (by simp)]
      have hlen : rest.length = 64 := by
        have := congrArg List.length hsplit
        simp only [List.length_append, List.length_cons] at this
        omega
      have hmem : k ∈ [cstr "r", cstr "known", cstr "blacklist", cstr "own"] := by
        simpa [or_assoc] using hname
      constructor
      · simp only [isRuleId, Bool.or_eq_true]
        refine Or.inr (List.any_eq_true.mpr ⟨k, hmem, ?_⟩)
        rw [htake, hdrop, hlen]
        rw [hdrop] at hhex
        simpa using hhex
      · rw [← hsplit]
        simp

theorem safeText_ne_nil {v : Bytes} {relative : Bool} (h : safeText v relative = true) : v ≠ [] := by
  rintro rfl
  simp [safeText] at h

theorem validateRecord_shown {zsh sieve : Option Bytes} {count i : ℕ} {raw : Bytes} {w w1 : Walk}
    {r : Record} (htag : r.tag = 82) (h : validateRecord zsh sieve count i raw w r = some w1) :
    Shown (restoreRule r.fields) := by
  have h68 : ¬((82 : Byte) = 68) := by decide
  have h77 : ¬((82 : Byte) = 77) := by decide
  simp only [validateRecord, textFields, htag, h68, h77, if_false] at h
  split at h
  · cases h
  · next htext =>
    have htexts : ∀ f ∈ r.fields, 0 ∉ f := by
      intro f hf h0
      exact htext (List.any_eq_true.mpr ⟨f, hf, by simpa using h0⟩)
    have hnul : ∀ k, 0 ∉ r.fields.getD k [] := getD_of_forall htexts List.not_mem_nil
    unfold validateRule at h
    split at h
    · split at h
      · cases h
      · next hgood =>
        simp only [not_or, Bool.not_eq_false] at hgood
        obtain ⟨_, _, _, _, _, _, hid, hlogical, _, hsieve, _⟩ := hgood
        obtain ⟨hrule, hne⟩ := isRuleId_of_cacheId hid
        refine ⟨hrule, hne, safeText_ne_nil hlogical, safeText_ne_nil hsieve, ?_⟩
        intro s hs
        simp only [restoreRule, List.mem_cons, List.not_mem_nil, or_false] at hs
        rcases hs with rfl | rfl | rfl | rfl | rfl
        all_goals exact hnul _
    · cases h

theorem Walks.shown {zsh sieve : Option Bytes} {count i : ℕ} {w w' : Walk} {records : List Record}
    (h : Walks zsh sieve count i w records w') : ∀ r ∈ recordRules records, Shown r := by
  induction h with
  | nil i w => simp [recordRules]
  | @cons i w w1 w' r rs raw harity hstep _ ih =>
    intro x hx
    rw [recordRules_cons, List.mem_append] at hx
    rcases hx with hx | hx
    · simp only [recordRules, List.filter_cons, List.filter_nil] at hx
      split at hx
      · next htag =>
        rw [List.map_singleton, List.mem_singleton] at hx
        subst hx
        exact validateRecord_shown (by simpa using htag) hstep
      · simp at hx
    · exact ih x hx

/-- Every rule of a policy from an accepted cache can be shown. -/
theorem cachePolicy_shown {posix : Posix} {cache : Bytes} {p : Policy}
    (h : cachePolicy posix cache = .ok p) : ∀ r ∈ p.rules, Shown r := by
  obtain ⟨_, hvalid, h⟩ := bind_eq_ok_iff.mp h
  obtain ⟨records, w, hread, _, hwalks, _⟩ := cacheValidate_walks hvalid
  rw [readRecords_mono (fun _ _ _ => rfl) hread] at h
  simp only [policyRestore] at h
  split at h
  · cases h
  · obtain ⟨rules, hrules, rfl⟩ := map_eq_ok_iff.mp h
    have heq := restoreRules_ok hrules
    rw [List.map_map] at heq
    intro r hr
    have hr : r ∈ rules := hr
    rw [heq] at hr
    exact hwalks.shown r hr

/-! ### Codes -/

/-- The text of an error code. -/
def Code.name : Code → Bytes
  | .eMemory => cstr "E_MEMORY"
  | .eArgument => cstr "E_ARGUMENT"
  | .eInputLimit => cstr "E_INPUT_LIMIT"
  | .eLineLimit => cstr "E_LINE_LIMIT"
  | .eUtf8 => cstr "E_UTF8"
  | .eFields => cstr "E_FIELDS"
  | .eQuote => cstr "E_QUOTE"
  | .eNul => cstr "E_NUL"
  | .eToken => cstr "E_TOKEN"
  | .eSelector => cstr "E_SELECTOR"
  | .ePredicate => cstr "E_PREDICATE"
  | .eAction => cstr "E_ACTION"
  | .eDestination => cstr "E_DESTINATION"
  | .eDomain => cstr "E_DOMAIN"
  | .eAddress => cstr "E_ADDRESS"
  | .eRuleLimit => cstr "E_RULE_LIMIT"
  | .eRegex => cstr "E_REGEX"
  | .eMessageLimit => cstr "E_MESSAGE_LIMIT"
  | .eMessageText => cstr "E_MESSAGE_TEXT"
  | .eMessageAddress => cstr "E_MESSAGE_ADDRESS"
  | .eMessageField => cstr "E_MESSAGE_FIELD"
  | .eMessageHeader => cstr "E_MESSAGE_HEADER"
  | .eMessageTruncated => cstr "E_MESSAGE_TRUNCATED"
  | .eRegexExec => cstr "E_REGEX_EXEC"
  | .eProfile => cstr "E_PROFILE"
  | .eCapability => cstr "E_CAPABILITY"
  | .eRegexQualification => cstr "E_REGEX_QUALIFICATION"
  | .eRegexExport => cstr "E_REGEX_EXPORT"
  | .eRule => cstr "E_RULE"
  | .eMailboxMapping => cstr "E_MAILBOX_MAPPING"
  | .eDependency => cstr "E_DEPENDENCY"
  | .eCache => cstr "E_CACHE"
  | .eSieveImport => cstr "E_SIEVE_IMPORT"

theorem isErrorCode_name (c : Code) : isErrorCode c.name = true := by
  cases c <;> decide

theorem isErrorCode_nul {v : Bytes} (h : isErrorCode v = true) : 0 ∉ v := by
  intro h0
  simp only [isErrorCode, Bool.and_eq_true, List.all_eq_true] at h
  exact absurd (h.2 0 h0) (by decide)

/-- What `jf_headers_read` returns and leaves in the error's code. -/
def headersAnswer : ReadFailure → ℕ × Option Bytes
  | .refused f => (f.rc, some f.error.code.name)
  | .io _ => (3, some (cstr "E_MESSAGE_IO"))

theorem headersAnswer_code (f : ReadFailure) : ∃ code, (headersAnswer f).2 = some code ∧ isErrorCode code = true := by
  cases f with
  | refused f => exact ⟨_, rfl, isErrorCode_name _⟩
  | io line => exact ⟨_, rfl, by decide⟩

end JaroFilter
