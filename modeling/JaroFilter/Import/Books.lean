import JaroFilter.Import.Merge

/-!
# Addressbooks after an import (`import.c:388-447`, `contact.c:91-132`)

Two programs write addressbook sections: the importer and the contact command.
What the importer appends is followed through the contact command's scanner.
-/

namespace JaroFilter

open Lib

/-! ### The first number of an import -/

theorem bookDigits_append (n : ℕ) (s rest : Bytes) :
    bookDigits n (s ++ 10 :: rest) = (bookDigits n s).map fun r => (r.1, r.2 ++ 10 :: rest) := by
  induction s generalizing n with
  | nil => simp [bookDigits]
  | cons c s ih =>
    simp only [List.cons_append, bookDigits]
    split
    · split
      · rfl
      · exact ih _
    · rfl

theorem bookHeader_append (max : ℕ) (s rest : Bytes) :
    bookHeader max (s ++ 10 :: rest) = bookHeader max s := by
  rw [bookHeader, bookHeader, bookDigits_append]
  cases bookDigits 0 s with
  | none => rfl
  | some r =>
    have hhead : (r.2 ++ 10 :: rest).head? = some 93 ↔ r.2.head? = some 93 := by
      cases r.2 <;> simp
    have hlen : (r.2 ++ 10 :: rest).length < (s ++ 10 :: rest).length ↔ r.2.length < s.length := by
      simp only [List.length_append, List.length_cons]
      omega
    simp only [Option.map_some, hhead, hlen]

/-- `book_next` on one line. -/
def bookNextLine (max : ℕ) : Bytes → Option ℕ
  | [] => some max
  | c :: s => if c = 91 then bookHeader max s else some max

def bookNextLines : ℕ → List Bytes → Option ℕ
  | max, [] => some max
  | max, l :: ls => (bookNextLine max l).bind fun max => bookNextLines max ls

theorem bookNextLoop_skip {l : Bytes} (hl : 10 ∉ l) (max : ℕ) (rest : Bytes) :
    bookNextLoop false max (l ++ 10 :: rest) = bookNextLoop true max rest ∧
      bookNextLoop false max l = some max := by
  induction l with
  | nil => simp [bookNextLoop]
  | cons c l ih =>
    have hc : (c == 10) = false := by simpa using fun h : c = 10 => hl (by simp [h])
    have ih := ih fun h => hl (List.mem_cons_of_mem _ h)
    simp only [List.cons_append, bookNextLoop, Bool.false_eq_true, false_and, if_false, hc]
    exact ih

theorem bookNextLoop_line {l : Bytes} (hl : 10 ∉ l) (max : ℕ) (rest : Bytes) :
    bookNextLoop true max (l ++ 10 :: rest) =
        (bookNextLine max l).bind (fun max => bookNextLoop true max rest) ∧
      bookNextLoop true max l = bookNextLine max l := by
  cases l with
  | nil => simp [bookNextLoop, bookNextLine]
  | cons c l =>
    have hc : (c == 10) = false := by simpa using fun h : c = 10 => hl (by simp [h])
    have hskip := fun m => bookNextLoop_skip (fun h => hl (List.mem_cons_of_mem c h)) m rest
    simp only [List.cons_append, bookNextLoop, bookNextLine, true_and, hc]
    split
    · rw [bookHeader_append]
      cases bookHeader max l with
      | none => exact ⟨rfl, rfl⟩
      | some m => exact hskip m
    · exact hskip max

theorem lines_of_not_mem {l : Bytes} (hl : 10 ∉ l) (hne : l ≠ []) : lines l = [l] := by
  induction l with
  | nil => exact absurd rfl hne
  | cons c l ih =>
    have hc : ¬ c = 10 := fun h => hl (by simp [h])
    cases l with
    | nil => simp [lines, hc]
    | cons d l =>
      have ih := ih (fun h => hl (List.mem_cons_of_mem _ h)) (by simp)
      rw [lines, if_neg hc, ih]

theorem bookNextLoop_lines (max : ℕ) (raw : Bytes) :
    bookNextLoop true max raw = bookNextLines max (lines raw) := by
  obtain ⟨n, hn⟩ : ∃ n, raw.length ≤ n := ⟨_, le_refl _⟩
  induction n generalizing max raw with
  | zero =>
    obtain rfl : raw = [] := List.length_eq_zero_iff.mp (by omega)
    rfl
  | succ n ih =>
    by_cases hlf : 10 ∈ raw
    · obtain ⟨l, rest, rfl, hl⟩ := List.eq_append_cons_of_mem hlf
      rw [(bookNextLoop_line hl max rest).1, lines_append_lf l rest hl, bookNextLines]
      refine Option.bind_congr fun m _ => ih m rest ?_
      simp only [List.length_append, List.length_cons] at hn
      omega
    · by_cases hne : raw = []
      · subst hne
        rfl
      · rw [(bookNextLoop_line hlf max []).2, lines_of_not_mem hlf hne, bookNextLines]
        cases bookNextLine max raw <;> rfl

/-- The numbers of the headers that start their line. -/
def flushNumbers (raw : Bytes) : List ℕ :=
  ((lines raw).filter fun l => l.head? == some 91).filterMap sectionNumber

/-- One above the largest. -/
def firstFree (ids : List ℕ) : ℕ := ids.foldl (fun m id => if m ≤ id then id + 1 else m) 0

theorem bookDigits_decimal {s : Bytes} {n id : ℕ} (h : decimalLoop n s = some id) (tail : Bytes) :
    bookDigits n (s ++ 93 :: tail) = none ∨ bookDigits n (s ++ 93 :: tail) = some (id, 93 :: tail) := by
  induction s generalizing n with
  | nil =>
    cases h
    exact .inr (by simp [bookDigits])
  | cons c s ih =>
    simp only [decimalLoop] at h
    split at h
    · cases h
    · rename_i hno
      simp only [not_or, UInt8.not_lt] at hno
      simp only [List.cons_append, bookDigits, hno.1, hno.2.1, true_and, if_true]
      split
      · exact .inl rfl
      · exact ih h

theorem trimLine_bracket (l : Bytes) : ∃ t tail, trimLine (91 :: l) = 91 :: t ∧ l = t ++ tail := by
  have hdrop : (91 :: l).dropWhile isBlank = 91 :: l := rfl
  have htrim : trimLine (91 :: l) = (91 :: l).rdropWhile fun d => isBlank d || d == 13 := by
    rw [trimLine, hdrop]
  obtain ⟨tail, htail⟩ := List.rdropWhile_prefix (fun d => isBlank d || d == 13) (91 :: l)
  rw [← htrim] at htail
  cases ht : trimLine (91 :: l) with
  | nil =>
    rw [htrim, List.rdropWhile_eq_nil_iff] at ht
    exact absurd (ht 91 (by simp)) (by decide)
  | cons d t =>
    rw [ht] at htail
    obtain ⟨hd, hl⟩ := List.cons.inj htail
    exact ⟨t, tail, by rw [hd], hl.symm⟩

/-- A bracket at the start of a line the scanner takes is the format's or a
section's. -/
theorem scanned_bracket {wanted : Bytes} {s : BookScan} {l : Bytes}
    (hscan : scanLine wanted s (91 :: l) ≠ .invalid) :
    (sectionNumber (91 :: l) = none ∧ ∃ tail, l = cstr "format]" ++ tail) ∨
      ∃ id digits tail, sectionNumber (91 :: l) = some id ∧ digits ≠ [] ∧
        decimalLoop 0 digits = some id ∧ l = digits ++ 93 :: tail := by
  obtain ⟨t, tail, ht, hl⟩ := trimLine_bracket l
  have hheader : scanHeader s (91 :: t) ≠ .invalid := by
    intro hinvalid
    refine hscan ?_
    simp only [scanLine, ht]
    by_cases hlong : lineMax < (91 :: t).length ∨ 0 ∈ 91 :: t
    · rw [if_pos hlong]
    · rw [if_neg hlong, if_neg (by simp), if_pos (by simp), hinvalid]
  rw [sectionNumber, ht, if_pos (by simp)]
  unfold scanHeader at hheader
  split at hheader
  · rename_i hformat
    refine .inl ⟨by rw [hformat]; exact headerNumber_format, tail, ?_⟩
    rw [hl]
    exact congrArg (· ++ tail) (List.cons.inj (hformat.trans
      (by decide : cstr "[format]" = 91 :: cstr "format]"))).2
  · split at hheader
    · exact absurd rfl hheader
    · split at hheader
      · exact absurd rfl hheader
      · rename_i id hid
        refine .inr ⟨id, ?_⟩
        rw [hid]
        unfold headerNumber at hid
        split at hid
        · cases hid
        · rename_i hshape
          simp only [not_or, not_lt, not_not] at hshape
          obtain ⟨digits, e, rfl⟩ := (List.eq_nil_or_concat t).resolve_left (by
            intro hnil
            rw [hnil] at hshape
            exact absurd hshape.1 (by decide))
          rw [List.concat_eq_append] at hid hshape hl
          obtain rfl : e = 93 := by
            have hlast := hshape.2
            rw [← List.cons_append, List.getLast?_concat] at hlast
            exact Option.some.inj hlast
          rw [List.tail_cons, List.dropLast_concat] at hid
          refine ⟨digits, tail, rfl, ?_, hid, by rw [hl]; simp⟩
          intro hnil
          rw [hnil] at hshape
          exact absurd hshape.1 (by decide)

/-- On a line the scanner takes `book_next` sees the same number. -/
theorem bookNextLine_eq {wanted : Bytes} {s : BookScan} {l : Bytes} {max m : ℕ}
    (hscan : scanLine wanted s l ≠ .invalid) (h : bookNextLine max l = some m) :
    m = if l.head? = some 91 then
      match sectionNumber l with
      | some id => if max ≤ id then id + 1 else max
      | none => max
    else max := by
  cases l with
  | nil =>
    simp only [bookNextLine, Option.some.injEq] at h
    simp [h]
  | cons c l =>
    simp only [bookNextLine] at h
    by_cases hc : c = 91
    · subst hc
      rw [if_pos rfl, bookHeader] at h
      rw [if_pos (by simp)]
      rcases scanned_bracket hscan with ⟨hnone, tail, rfl⟩ | ⟨id, digits, tail, hid, hne, hloop, rfl⟩
      · have hdigits : bookDigits 0 (cstr "format]" ++ tail) = some (0, cstr "format]" ++ tail) := rfl
        rw [hdigits] at h
        rw [hnone]
        simpa using h.symm
      · rw [hid]
        rcases bookDigits_decimal hloop tail with hd | hd
        · rw [hd] at h
          cases h
        · rw [hd] at h
          have hpos := List.length_pos_of_ne_nil hne
          have hlen : (93 :: tail).length < (digits ++ 93 :: tail).length := by
            rw [List.length_append]
            omega
          simp only [hlen, List.head?_cons, true_and] at h
          simp only
          split at h
          · rename_i hle
            rw [if_pos hle]
            split at h
            · cases h
            · exact (Option.some.inj h).symm
          · rename_i hle
            rw [if_neg hle]
            exact (Option.some.inj h).symm
    · rw [if_neg hc] at h
      rw [if_neg (by simpa using hc)]
      exact (Option.some.inj h).symm

theorem bookNextLines_eq {wanted : Bytes} {s t : BookScan} {ls : List Bytes} {max m : ℕ}
    (hscan : scanLines wanted s ls = .done t) (h : bookNextLines max ls = some m) :
    m = ((ls.filter fun l => l.head? == some 91).filterMap sectionNumber).foldl
      (fun m id => if m ≤ id then id + 1 else m) max := by
  induction ls generalizing s max with
  | nil => exact (Option.some.inj h).symm
  | cons l ls ih =>
    simp only [scanLines] at hscan
    split at hscan
    · rename_i mid hmid
      obtain ⟨m', hm', hrest⟩ := Option.bind_eq_some_iff.mp h
      have hline := bookNextLine_eq (by rw [hmid]; simp) hm'
      have ih := ih hscan hrest
      by_cases hhead : l.head? = some 91
      · rw [if_pos hhead] at hline
        rw [List.filter_cons_of_pos (by simp [hhead])]
        cases hn : sectionNumber l with
        | none =>
          rw [hn] at hline
          rw [List.filterMap_cons_none hn, ih, hline]
        | some id =>
          rw [hn] at hline
          rw [List.filterMap_cons_some hn, List.foldl_cons, ih, hline]
      · rw [if_neg hhead] at hline
        rw [List.filter_cons_of_neg (by simp [hhead]), ih, hline]
    · rename_i hno
      exact absurd hscan (hno t)

/-- The import's first number is one above the numbers it can see. -/
theorem bookNext_eq {wanted raw : Bytes} {t : BookScan} {m : ℕ}
    (hscan : scanLines wanted bookStart (lines raw) = .done t) (h : bookNext raw = some m) :
    m = firstFree (flushNumbers raw) := by
  rw [bookNext, bookNextLoop_lines] at h
  exact bookNextLines_eq hscan h

/-! ### What the import appends -/

def importedName : Bytes := cstr "Imported Sieve"

/-- One record of `append_book`. -/
def importRecord (n : ℕ) (m : Bytes) : Bytes :=
  10 :: (sectionLines n m importedName).flatMap (· ++ [10])

def importRecords : ℕ → List Bytes → Bytes
  | _, [] => []
  | n, m :: ms => importRecord n m ++ importRecords (n + 1) ms

theorem importRecords_append (n : ℕ) (ms ms' : List Bytes) :
    importRecords n (ms ++ ms') = importRecords n ms ++ importRecords (n + ms.length) ms' := by
  induction ms generalizing n with
  | nil => rfl
  | cons m ms ih =>
    simp only [List.cons_append, importRecords, ih, List.append_assoc, List.length_cons,
      Nat.add_assoc, Nat.add_comm 1]

theorem appendBook_eq {out out' address : Bytes} {n : ℕ} (h : appendBook out address n = some out') :
    out' = out ++ importRecord n address ∧ n ≠ ulongMax := by
  unfold appendBook at h
  split at h
  · cases h
  · rename_i hn
    refine ⟨?_, hn⟩
    simp only [bytesText, bytesAdd_eq, Option.bind_eq_bind] at h
    split at h
    · rw [Option.bind_some] at h
      split at h
      · rw [Option.bind_some] at h
        split at h
        · have hparts : cstr "\n[" = [10, 91] ∧ cstr "\n" = [10] ∧
              cstr "]\nname=Imported Sieve\nemail=" =
                93 :: 10 :: cstr "name" ++ 61 :: importedName ++ 10 :: cstr "email" ++ [61] := by
            decide
          obtain ⟨h1, h2, h3⟩ := hparts
          have hne : importedName ≠ [] := by decide
          rw [← Option.some.inj h, h1, h2, h3]
          simp [importRecord, sectionLines, nameLine, emailLine, shownName, hne]
        · cases h
      · cases h
    · cases h

theorem bookDigits_le {s : Bytes} {n m : ℕ} {rest : Bytes} (hn : n ≤ ulongMax)
    (h : bookDigits n s = some (m, rest)) : m ≤ ulongMax := by
  induction s generalizing n with
  | nil =>
    cases h
    exact hn
  | cons c s ih =>
    simp only [bookDigits] at h
    split at h
    · rename_i hdigit
      split at h
      · cases h
      · rename_i hfit
        have hc := UInt8.le_iff_toNat_le.mp hdigit.2
        have h57 : (57 : Byte).toNat = 57 := rfl
        refine ih ?_ h
        have hmax : ulongMax = 18446744073709551615 := rfl
        omega
    · cases h
      exact hn

theorem bookNextLoop_le {start : Bool} {max m : ℕ} {s : Bytes} (hmax : max ≤ ulongMax)
    (h : bookNextLoop start max s = some m) : m ≤ ulongMax := by
  induction s generalizing start max with
  | nil =>
    cases h
    exact hmax
  | cons c s ih =>
    simp only [bookNextLoop] at h
    split at h
    · split at h
      · cases h
      · rename_i max' hheader
        refine ih ?_ h
        unfold bookHeader at hheader
        split at hheader
        · cases hheader
        · rename_i n rest hd
          have hn := bookDigits_le (Nat.zero_le _) hd
          split at hheader
          · split at hheader
            · cases hheader
            · have heq := Option.some.inj hheader
              omega
          · rw [← Option.some.inj hheader]
            exact hmax
    · exact ih hmax h

theorem bookNext_le {raw : Bytes} {n : ℕ} (h : bookNext raw = some n) : n ≤ ulongMax :=
  bookNextLoop_le (Nat.zero_le _) h

/-- A book after the contacts `ms` were merged into it. -/
def BookAt (raw : Bytes) (ms : List Bytes) (out : Bytes) (nextId : Option ℕ) : Prop :=
  (ms = [] ∧ out = raw ∧ nextId = none) ∨
    ∃ n, bookNext raw = some n ∧ out = raw ++ importRecords n ms ∧ nextId = some (n + ms.length) ∧
      n + ms.length ≤ ulongMax

/-- The contact a rule adds to a file. -/
def addedBy (index : List Indexed) (f : ImportFile) (r : Rule) : Option Bytes :=
  if isMerged r = true ∧ targetFile r = f ∧ findRule index r = none then some r.predicate else none

theorem mergeBook_at {raw : Bytes} {ms : List Bytes} {st st' : MergeState} {r : Rule}
    (hat : BookAt raw ms (st.output (targetFile r)) (st.nextId (targetFile r)))
    (h : mergeBook st r = .ok st') :
    BookAt raw (ms ++ [r.predicate]) (st'.output (targetFile r)) (st'.nextId (targetFile r)) ∧
      ∀ f, f ≠ targetFile r → st'.output f = st.output f ∧ st'.nextId f = st.nextId f := by
  simp only [mergeBook] at h
  split at h
  · cases h
  · rename_i n hn
    split at h
    · cases h
    · rename_i out hout
      cases h
      obtain ⟨rfl, hmax⟩ := appendBook_eq hout
      refine ⟨?_, fun f hf => ⟨Function.update_of_ne hf _ _, Function.update_of_ne hf _ _⟩⟩
      simp only [Function.update_self]
      rcases hat with ⟨rfl, hraw, hnone⟩ | ⟨k, hk, hraw, hsome, hle⟩
      · have hn : bookNext raw = some n := by simpa [hnone, hraw] using hn
        refine .inr ⟨n, hn, ?_, rfl, ?_⟩
        · rw [hraw]
          simp [importRecords]
        · have hbound : n ≤ ulongMax := bookNext_le hn
          simp only [List.nil_append, List.length_singleton]
          omega
      · rw [hsome] at hn
        obtain rfl : k + ms.length = n := by simpa using hn
        refine .inr ⟨k, hk, ?_, ?_, ?_⟩
        · rw [hraw, importRecords_append]
          simp [importRecords]
        · simp only [List.length_append, List.length_singleton, Nat.add_assoc]
        · simp only [List.length_append, List.length_singleton]
          omega

theorem isBook_merged {r : Rule} (h : targetFile r = .whitelist ∨ targetFile r = .blacklist) :
    isMerged r = true := by
  unfold targetFile at h
  unfold isMerged
  by_cases h1 : r.stage = 1
  · rw [h1]
    rfl
  · rw [if_neg h1] at h
    by_cases h7 : r.stage = 7
    · rw [if_pos h7] at h
      rcases h with h | h <;> cases h
    · rw [if_neg h7] at h
      by_cases h5 : r.stage = 5 ∧ r.kind = .address
      · rw [h5.1]
        rfl
      · rw [if_neg h5] at h
        rcases h with h | h <;> cases h

/-- One rule of the import changes a book by its contact or not at all. -/
theorem mergeRule_at {index : List Indexed} {f : ImportFile} (hf : f = .whitelist ∨ f = .blacklist)
    {raw : Bytes} {ms : List Bytes} {st st' : MergeState} {r : Rule}
    (hat : BookAt raw ms (st.output f) (st.nextId f)) (h : mergeRule index st r = .ok st') :
    BookAt raw (ms ++ (addedBy index f r).toList) (st'.output f) (st'.nextId f) := by
  have hkeep : addedBy index f r = none → st'.output f = st.output f → st'.nextId f = st.nextId f →
      BookAt raw (ms ++ (addedBy index f r).toList) (st'.output f) (st'.nextId f) := by
    intro hnone hout hnext
    rw [hnone, hout, hnext, Option.toList_none, List.append_nil]
    exact hat
  unfold mergeRule at h
  split at h
  · rename_i hmerged
    cases h
    exact hkeep (by rw [addedBy, if_neg (by rw [hmerged]; simp)]) rfl rfl
  · rename_i hmerged
    split at h
    · rename_i found hfound
      have hnone : addedBy index f r = none := by rw [addedBy, if_neg (by rw [hfound]; simp)]
      unfold mergeFound at h
      split at h
      · cases h
      · split at h <;> cases h
        exact hkeep hnone rfl rfl
    · rename_i hfound
      obtain ⟨last, hlast⟩ : ∃ last, last = Function.update st.last r.stage (index.length + 1) := ⟨_, rfl⟩
      obtain ⟨st0, hst0⟩ : ∃ st0, st0 = if isOrdered r then { st with last := last } else st := ⟨_, rfl⟩
      have hsame : st0.output = st.output ∧ st0.nextId = st.nextId := by
        rw [hst0]
        split <;> exact ⟨rfl, rfl⟩
      simp only [mergeNew, ← hlast, ← hst0] at h
      split at h
      · rename_i hbook
        have hmerged := isBook_merged hbook
        by_cases hfile : f = targetFile r
        · have hadded : addedBy index f r = some r.predicate := by
            rw [addedBy, if_pos ⟨hmerged, hfile.symm, hfound⟩]
          rw [hadded, Option.toList_some, hfile]
          rw [hfile, ← hsame.1, ← hsame.2] at hat
          exact (mergeBook_at hat h).1
        · have hadded : addedBy index f r = none := by
            rw [addedBy, if_neg fun hall => hfile hall.2.1.symm]
          have hother : st'.output f = st0.output f ∧ st'.nextId f = st0.nextId f := by
            simp only [mergeBook] at h
            split at h
            · cases h
            · split at h
              · cases h
              · cases h
                exact ⟨Function.update_of_ne hfile _ _, Function.update_of_ne hfile _ _⟩
          exact hkeep hadded (by rw [hother.1, hsame.1]) (by rw [hother.2, hsame.2])
      · rename_i hnot
        have hfile : f ≠ targetFile r := by
          rintro rfl
          exact hnot hf
        split at h
        · cases h
        · cases h
          refine hkeep (by rw [addedBy, if_neg fun hall => hfile hall.2.1.symm]) ?_ ?_
          · simp only [Function.update_of_ne hfile, hsame.1]
          · simp only [hsame.2]

theorem mergeRules_at {index : List Indexed} {f : ImportFile} (hf : f = .whitelist ∨ f = .blacklist)
    {raw : Bytes} {ms : List Bytes} {st st' : MergeState} {rs : List Rule}
    (hat : BookAt raw ms (st.output f) (st.nextId f)) (h : mergeRules index st rs = .ok st') :
    BookAt raw (ms ++ rs.filterMap (addedBy index f)) (st'.output f) (st'.nextId f) := by
  induction rs generalizing st ms with
  | nil =>
    cases h
    simpa using hat
  | cons r rs ih =>
    obtain ⟨mid, hmid, hrest⟩ := bind_eq_ok_iff.mp h
    have hnext := ih (mergeRule_at hf hat hmid) hrest
    rw [List.append_assoc] at hnext
    cases ha : addedBy index f r with
    | none => simpa [ha] using hnext
    | some m => simpa [ha] using hnext

/-! ### Which contacts are new -/

theorem keyCompare_eq : keyCompare = compareLex (compareOn Rule.stage)
    (compareLex (compareOn Rule.selector) (compareOn Rule.predicate)) := by
  funext a b
  simp only [keyCompare, compareLex, compareOn, strcmp]
  by_cases h : a.stage = b.stage
  · rw [if_neg (by simp [h]), Nat.compare_eq_eq.mpr h]
    rfl
  · rw [if_pos h]
    by_cases hlt : a.stage < b.stage
    · rw [if_pos hlt, Nat.compare_eq_lt.mpr hlt]
      rfl
    · rw [if_neg hlt, Nat.compare_eq_gt.mpr (by omega)]
      rfl

instance : Std.TransCmp keyCompare := by
  rw [keyCompare_eq]
  infer_instance

/-- The current policy has no rule of this stage, selector and predicate. -/
def isNew (current : List Rule) (r : Rule) : Bool := current.all fun c => keyCompare r c != .eq

theorem findRule_none_iff (current : List Rule) (r : Rule) :
    findRule (indexCurrent current) r = none ↔ isNew current r = true := by
  have hsorted : (indexCurrent current).Pairwise fun x y => (keyCompare x.rule y.rule).isLE = true := by
    have hcmp : Std.TransCmp fun a b : Indexed => keyCompare a.rule b.rule := by
      rw [keyCompare_eq]
      exact inferInstanceAs (Std.TransCmp (compareLex (compareOn fun x : Indexed => x.rule.stage)
        (compareLex (compareOn fun x => x.rule.selector) (compareOn fun x => x.rule.predicate))))
    exact pairwise_qsort _ _
  have hiff := search_isSome_iff (@pairwise_against _ _ keyCompare _ Indexed.rule _ hsorted r)
  have hmem : ∀ c, (∃ x ∈ indexCurrent current, x.rule = c) ↔ c ∈ current := by
    intro c
    have hmap : (indexCurrent current).map Indexed.rule |>.Perm current := by
      refine ((qsort_perm _ _).map _).trans ?_
      rw [List.map_map]
      have hfst : current.zipIdx.map (Indexed.rule ∘ fun x => ⟨x.1, x.2⟩) = current :=
        List.zipIdx_map_fst 0 current
      rw [hfst]
    rw [← hmap.mem_iff, List.mem_map]
  rw [← Option.not_isSome_iff_eq_none, findRule, hiff, isNew, List.all_eq_true]
  constructor
  · intro hno c hc
    obtain ⟨x, hx, rfl⟩ := (hmem c).mpr hc
    simpa using fun heq => hno ⟨x, hx, heq⟩
  · intro hall hex
    obtain ⟨x, hx, heq⟩ := hex
    have hne := hall x.rule ((hmem x.rule).mp ⟨x, hx, rfl⟩)
    rw [heq] at hne
    cases hne

/-- The contacts an import adds to a book. -/
def addedContacts (current imported : List Rule) (f : ImportFile) : List Bytes :=
  (imported.filter fun r => targetFile r == f && isNew current r).map Rule.predicate

theorem filterMap_addedBy {f : ImportFile} (hf : f = .whitelist ∨ f = .blacklist)
    (current imported : List Rule) :
    imported.filterMap (addedBy (indexCurrent current) f) = addedContacts current imported f := by
  induction imported with
  | nil => rfl
  | cons r rs ih =>
    rw [addedContacts] at ih ⊢
    by_cases hr : targetFile r = f ∧ isNew current r = true
    · have hmerged : isMerged r = true := isBook_merged (by rw [hr.1]; exact hf)
      have hadded : addedBy (indexCurrent current) f r = some r.predicate := by
        rw [addedBy, if_pos ⟨hmerged, hr.1, (findRule_none_iff current r).mpr hr.2⟩]
      rw [List.filterMap_cons_some hadded, ih, List.filter_cons_of_pos (by simp [hr]), List.map_cons]
    · have hadded : addedBy (indexCurrent current) f r = none := by
        rw [addedBy, if_neg]
        rintro ⟨-, h1, h2⟩
        exact hr ⟨h1, (findRule_none_iff current r).mp h2⟩
      rw [List.filterMap_cons_none hadded, ih, List.filter_cons_of_neg (by simpa using hr)]

/-- A merge appends to a book the contacts it lacks, numbered from
`book_next` on. -/
theorem importMerge_book {current imported : List Rule} {original output : ImportFile → Bytes}
    (h : importMerge current imported original = .ok output) {f : ImportFile}
    (hf : f = .whitelist ∨ f = .blacklist) :
    ∃ nextId, BookAt (original f) (addedContacts current imported f) (output f) nextId := by
  unfold importMerge at h
  split at h
  · cases h
  · obtain ⟨st, hst, hout⟩ := bind_eq_ok_iff.mp h
    have hstart : BookAt (original f) [] (original f) none := .inl ⟨rfl, rfl, rfl⟩
    have hat := mergeRules_at hf hstart hst
    rw [List.nil_append, filterMap_addedBy hf] at hat
    cases hout
    exact ⟨_, hat⟩

/-! ### The scanner on the appended records -/

/-- The whole book is within the scanner's limits. -/
def ScansBook (raw : Bytes) : Prop :=
  raw.length ≤ inputMax ∧ ∀ wanted, scanLines wanted bookStart (lines raw) ≠ .invalid

theorem sameEmail_nil (quote escape : Bool) (piece s : Bytes) :
    sameEmail [] quote escape piece s = false := by
  have hpiece : ∀ piece, sameMailbox [] piece = false := by
    intro piece
    rw [sameMailbox, beq_eq_false_iff_ne]
    intro h
    unfold canonicalEmail at h
    split at h
    · obtain ⟨t, ht, hfold⟩ := Option.map_eq_some_iff.mp h
      obtain ⟨-, l, d, -, -, rfl⟩ := normalizeMailbox_eq_some_iff.mp ht
      have hlen := congrArg List.length hfold
      rw [foldBytes_length] at hlen
      unfold canonical at hlen
      split at hlen <;> simp at hlen
    · cases h
  induction s generalizing quote escape piece with
  | nil => cases escape <;> simp only [sameEmail, hpiece]
  | cons c s ih =>
    cases escape with
    | true => simp only [sameEmail, ih]
    | false => simp only [sameEmail, ih, hpiece, Bool.or_false, ite_self]

theorem scanLine_nobody (s : BookScan) (l : Bytes) : scanLine [] s l ≠ .present := by
  simp only [scanLine]
  split
  · simp
  · split
    · simp
    · split
      · unfold scanHeader
        split
        · split <;> simp
        · split
          · simp
          · split
            · simp
            · split <;> simp
      · simp only [scanField, sameEmail_nil]
        split <;> simp

theorem scanLines_nobody (s : BookScan) (ls : List Bytes) : scanLines [] s ls ≠ .present := by
  induction ls generalizing s with
  | nil => simp [scanLines]
  | cons l ls ih =>
    simp only [scanLines]
    split
    · exact ih _
    · exact scanLine_nobody s l

/-- A scan that has stopped stays where it is. -/
theorem scan_stuck {wanted raw : Bytes} {r : Scanned} (h : scanLines wanted bookStart (lines raw) = r)
    (hr : ∀ s, r ≠ .done s) (rest : Bytes) :
    scanLines wanted bookStart (lines (raw ++ 10 :: rest)) = r := by
  obtain ⟨blank, -, hlines⟩ := lines_append raw rest
  rw [hlines, List.append_assoc, scanLines_append, h]
  cases r with
  | done s => exact absurd rfl (hr s)
  | invalid => rfl
  | present => rfl

theorem scan_import {wanted raw : Bytes} {s : BookScan} {n : ℕ} {m : Bytes}
    (hscan : scanLines wanted bookStart (lines raw) = .done s) (hn : n < sizeMax) (hm : IsPlain m) :
    scanLines wanted bookStart (lines (raw ++ importRecord n m)) =
      if s.format = false ∨ ruleMax < s.records + 1 ∨ lineMax < (trimLine (emailLine m)).length then
        .invalid
      else if sameEmail wanted false false [] (m.rdropWhile fun d => isBlank d || d == 13) = true then
        .present
      else .done { s with
        records := s.records + 1
        next := if s.next ≤ n then n + 1 else s.next
        inSection := true } := by
  obtain ⟨hname, hshort⟩ : IsPlain importedName ∧
      ∀ m, (trimLine (nameLine m importedName)).length ≤ lineMax := by
    have hne : importedName ≠ [] := by decide
    have hplain : ∀ c ∈ importedName, isControl c = false := by decide +kernel
    refine ⟨hplain, fun m => ?_⟩
    rw [nameLine, shownName, if_neg hne]
    decide
  rw [importRecord]
  obtain ⟨blank, hblank, hlines⟩ := lines_append raw ((sectionLines n m importedName).flatMap (· ++ [10]))
  rw [hlines, lines_join (sectionLines_lf hm hname n), scanLines_append, scanLines_append, hscan]
  simp only [scanLines_blank hblank]
  rw [scan_section wanted s hn.le hm hname]
  refine if_congr ?_ rfl rfl
  have hle := hshort m
  constructor
  · rintro (h | h | h | h | h)
    · exact .inl h
    · omega
    · exact .inr (.inl h)
    · omega
    · exact .inr (.inr h)
  · rintro (h | h | h)
    · exact .inl h
    · exact .inr (.inr (.inl h))
    · exact .inr (.inr (.inr (.inr h)))

/-- The scanner takes all the records or none of it matters. -/
def TakesAll (s : BookScan) (ms : List Bytes) : Prop :=
  ms = [] ∨ s.format = true ∧ s.records + ms.length ≤ ruleMax ∧
    ∀ m ∈ ms, (trimLine (emailLine m)).length ≤ lineMax

theorem importRecords_cons (n : ℕ) (m : Bytes) (ms : List Bytes) :
    ∃ rest, importRecords n (m :: ms) = 10 :: rest := ⟨_, rfl⟩

theorem scan_imports {wanted raw : Bytes} {s : BookScan} {n : ℕ} {ms : List Bytes}
    (hscan : scanLines wanted bookStart (lines raw) = .done s) (hn : n + ms.length ≤ sizeMax)
    (hm : ∀ m ∈ ms, IsPlain m) :
    (TakesAll s ms → scanLines wanted bookStart (lines (raw ++ importRecords n ms)) ≠ .invalid ∧
      ∀ m ∈ ms, sameEmail wanted false false [] (m.rdropWhile fun d => isBlank d || d == 13) = true →
        scanLines wanted bookStart (lines (raw ++ importRecords n ms)) = .present) ∧
      (¬ TakesAll s ms → wanted = [] →
        scanLines wanted bookStart (lines (raw ++ importRecords n ms)) = .invalid) := by
  induction ms generalizing raw s n with
  | nil =>
    refine ⟨fun _ => ⟨?_, by simp⟩, fun hno => absurd (.inl rfl) hno⟩
    rw [importRecords, List.append_nil, hscan]
    simp
  | cons m ms ih =>
    simp only [List.length_cons] at hn
    have hone := scan_import hscan (n := n) (by omega) (hm m (by simp))
    rw [importRecords, ← List.append_assoc]
    have hpersist : ∀ r, scanLines wanted bookStart (lines (raw ++ importRecord n m)) = r →
        (∀ s, r ≠ .done s) →
        scanLines wanted bookStart (lines (raw ++ importRecord n m ++ importRecords (n + 1) ms)) = r := by
      intro r hr hstop
      cases ms with
      | nil => rw [importRecords, List.append_nil, hr]
      | cons m' ms =>
        obtain ⟨rest, hrest⟩ := importRecords_cons (n + 1) m' ms
        rw [hrest]
        exact scan_stuck hr hstop rest
    by_cases hbad : s.format = false ∨ ruleMax < s.records + 1 ∨
        lineMax < (trimLine (emailLine m)).length
    · rw [if_pos hbad] at hone
      have hno : ¬ TakesAll s (m :: ms) := by
        rintro (hnil | ⟨hf, hr, hl⟩)
        · cases hnil
        · have hlen := hl m (by simp)
          simp only [List.length_cons] at hr
          rcases hbad with hbad | hbad | hbad
          · rw [hf] at hbad
            cases hbad
          · omega
          · omega
      exact ⟨fun h => absurd h hno, fun _ _ => hpersist _ hone (by simp)⟩
    · rw [if_neg hbad] at hone
      by_cases hsame : sameEmail wanted false false []
          (m.rdropWhile fun d => isBlank d || d == 13) = true
      · rw [if_pos hsame] at hone
        have hpresent := hpersist _ hone (by simp)
        refine ⟨fun _ => ⟨by rw [hpresent]; simp, fun _ _ _ => hpresent⟩, fun _ hw => ?_⟩
        rw [hw, sameEmail_nil] at hsame
        cases hsame
      · rw [if_neg hsame] at hone
        have ih := ih hone (n := n + 1) (by omega) fun x hx => hm x (List.mem_cons_of_mem _ hx)
        have htakes : TakesAll s (m :: ms) ↔ TakesAll { s with
            records := s.records + 1
            next := if s.next ≤ n then n + 1 else s.next
            inSection := true } ms := by
          have hs : s.format = true := by
            rw [← Bool.not_eq_false]
            exact fun h => hbad (.inl h)
          have hroom : s.records + 1 ≤ ruleMax ∧ (trimLine (emailLine m)).length ≤ lineMax := by
            constructor <;> by_contra h
            · exact hbad (.inr (.inl (by omega)))
            · exact hbad (.inr (.inr (by omega)))
          simp only [TakesAll, hs, true_and, List.length_cons, List.forall_mem_cons, hroom.2]
          constructor
          · rintro (hnil | ⟨hr, hl⟩)
            · cases hnil
            · exact .inr ⟨by omega, hl⟩
          · rintro (rfl | ⟨hr, hl⟩)
            · exact .inr ⟨by simpa using hroom.1, by simp⟩
            · exact .inr ⟨by omega, hl⟩
        rw [htakes]
        refine ⟨fun h => ⟨(ih.1 h).1, fun x hx hxs => ?_⟩, ih.2⟩
        rcases List.mem_cons.mp hx with rfl | hx
        · exact absurd hxs hsame
        · exact (ih.1 h).2 x hx hxs

/-! ### Both writers -/

def Headed (raw : Bytes) : Prop := ∃ l ∈ lines raw, trimLine l = cstr "[format]"

theorem scanLine_headed {wanted : Bytes} {s t : BookScan} {l : Bytes} (h : scanLine wanted s l = .done t) :
    t.format = true ↔ s.format = true ∨ trimLine l = cstr "[format]" := by
  simp only [scanLine] at h
  split at h
  · cases h
  · split at h
    · rename_i hskip
      cases h
      have hne : trimLine l ≠ cstr "[format]" := by
        rcases hskip with ht | ht
        · rw [ht]
          decide
        · intro heq
          rw [heq] at ht
          exact absurd ht (by decide)
      simp [hne]
    · split at h
      · unfold scanHeader at h
        split at h
        · rename_i ht
          split at h <;> cases h
          simp [ht]
        · rename_i ht
          split at h
          · cases h
          · rename_i hf
            split at h
            · cases h
            · split at h <;> cases h
              simp [ht]
      · rename_i hhead
        have hne : trimLine l ≠ cstr "[format]" := by
          intro heq
          rw [heq] at hhead
          exact hhead (by decide)
        rw [scanField_done h]
        simp [hne]

theorem scanLines_headed {wanted : Bytes} {s t : BookScan} {ls : List Bytes}
    (h : scanLines wanted s ls = .done t) :
    t.format = true ↔ s.format = true ∨ ∃ l ∈ ls, trimLine l = cstr "[format]" := by
  induction ls generalizing s with
  | nil =>
    cases h
    simp
  | cons l ls ih =>
    simp only [scanLines] at h
    split at h
    · rename_i mid hmid
      rw [ih h, scanLine_headed hmid, List.exists_mem_cons_iff, or_assoc]
    · rename_i hno
      exact absurd h (hno t)

theorem sectionNumber_section {n : ℕ} (hn : n ≤ sizeMax) (m : Bytes) :
    (sectionLines n m importedName).filterMap sectionNumber = [n] := by
  have hheader : sectionNumber (91 :: decimalText n ++ [93]) = some n := by
    rw [sectionNumber, trimLine_header, if_pos (by simp), headerNumber_decimalText hn]
  have hfield : ∀ key x, key ∈ bookKeys → sectionNumber (key ++ 61 :: x) = none := by
    intro key x hkey
    obtain ⟨-, -, hne, -, hhead⟩ := bookKeys_facts key hkey
    obtain ⟨k, rest, rfl⟩ := List.exists_cons_of_ne_nil hne
    rw [sectionNumber, trimLine_field hkey, if_neg (by simpa using (hhead k rfl).2.2)]
  have hkeys : cstr "name" ∈ bookKeys ∧ cstr "email" ∈ bookKeys := by decide
  rw [sectionLines, nameLine, emailLine, List.filterMap_cons_some hheader,
    List.filterMap_cons_none (hfield _ _ hkeys.1), List.filterMap_cons_none (hfield _ _ hkeys.2),
    List.filterMap_nil]

theorem sectionNumbers_import {raw : Bytes} {n : ℕ} {ms : List Bytes} (hn : n + ms.length ≤ sizeMax)
    (hm : ∀ m ∈ ms, IsPlain m) :
    sectionNumbers (raw ++ importRecords n ms) = sectionNumbers raw ++ List.range' n ms.length := by
  have hplain : IsPlain importedName := by
    have hbytes : ∀ c ∈ importedName, isControl c = false := by decide +kernel
    exact hbytes
  induction ms generalizing raw n with
  | nil => simp [importRecords]
  | cons m ms ih =>
    simp only [List.length_cons] at hn
    have hone : sectionNumbers (raw ++ importRecord n m) = sectionNumbers raw ++ [n] := by
      rw [importRecord, sectionNumbers]
      obtain ⟨blank, hblank, hlines⟩ := lines_append raw
        ((sectionLines n m importedName).flatMap (· ++ [10]))
      have hnone : blank.filterMap sectionNumber = [] := by
        refine List.filterMap_eq_nil_iff.mpr fun l hl => ?_
        rw [hblank l hl]
        rfl
      rw [hlines, lines_join (sectionLines_lf (hm m (by simp)) hplain n), List.filterMap_append,
        List.filterMap_append, hnone, List.append_nil, sectionNumber_section (by omega)]
      rfl
    rw [importRecords, ← List.append_assoc, ih (by omega) fun x hx => hm x (List.mem_cons_of_mem _ hx),
      hone, List.append_assoc, List.length_cons, List.range'_succ]
    rfl

/-- The predicate of a contact is a mailbox in the form the scanner compares. -/
theorem contact_predicate {r : Rule} (hr : RuleOk r) {f : ImportFile}
    (hf : f = .whitelist ∨ f = .blacklist) (ht : targetFile r = f) :
    IsPlain r.predicate ∧ validText r.predicate = true ∧
      canonicalEmail r.predicate = some r.predicate := by
  have hkind : r.kind = .address := by
    have hplaced := hr.placed
    unfold targetFile at ht
    by_cases h1 : r.stage = 1
    · rw [h1] at hplaced
      cases hk : r.kind <;> rw [hk] at hplaced <;> first | rfl | simp [placements] at hplaced
    · rw [if_neg h1] at ht
      by_cases h7 : r.stage = 7
      · rw [if_pos h7] at ht
        rcases hf with rfl | rfl <;> cases ht
      · rw [if_neg h7] at ht
        by_cases h5 : r.stage = 5 ∧ r.kind = .address
        · exact h5.2
        · rw [if_neg h5] at ht
          rcases hf with rfl | rfl <;> cases ht
  have hnormal := hr.normal
  rw [hkind] at hnormal
  obtain ⟨hnorm, hfold, hutf⟩ := hnormal
  obtain ⟨hlen, l, d, hm, -, heq⟩ := normalizeMailbox_eq_some_iff.mp hnorm
  have hdomain : ∀ c ∈ d, isControl c = false := by
    intro c hc
    have htable : ∀ c : Byte, (isLdh c || c == 46) = true → isControl c = false := by decide +kernel
    refine htable c ?_
    rcases validDomain_bytes hm.domain c hc with h | h <;> simp [h]
  have hplain : IsPlain r.predicate := by
    intro c hc
    rw [heq, canonical] at hc
    split at hc
    · simp only [List.cons_append, List.mem_cons, List.mem_append] at hc
      rcases hc with rfl | hc | rfl | rfl | hc
      · rfl
      · rcases mem_escape hc with rfl | hc
        · rfl
        · exact hm.text c hc
      · rfl
      · rfl
      · exact hdomain c hc
    · rcases List.mem_append.mp hc with hc | hc
      · exact hm.text c hc
      · rcases List.mem_cons.mp hc with rfl | hc
        · rfl
        · exact hdomain c hc
  refine ⟨hplain, ?_, ?_⟩
  · simp only [validText, hutf, Bool.and_true, Bool.and_eq_true, decide_eq_true_eq, List.all_eq_true]
    exact ⟨hlen, fun c hc => by rw [hplain c hc]; rfl⟩
  · rw [canonicalEmail, if_pos hutf, hnorm, Option.map_some, hfold]

/-- What both writers owe a book: the scanner takes it, new sections are new
and new contacts are found. -/
def KeepsBook (raw out : Bytes) (ms : List Bytes) : Prop :=
  ScansBook out ∧ (∀ n ∈ (sectionNumbers out).drop (sectionNumbers raw).length, n ∉ sectionNumbers raw) ∧
    ∀ m ∈ ms, 44 ∉ m → ∀ name check io, validText name = true → io.opened = true → io.busy = false →
      io.readable = true → (contactAdd io (some out) m name check).rc = 1

/-- The book has its header and room for the records, and no indented header
has one of their numbers. -/
def FitsBook (raw : Bytes) (ms : List Bytes) : Prop :=
  ms = [] ∨ Headed raw ∧ (sectionNumbers raw).length + ms.length ≤ ruleMax ∧
    (∀ m ∈ ms, (trimLine (emailLine m)).length ≤ lineMax) ∧
    raw.length + (importRecords (firstFree (flushNumbers raw)) ms).length ≤ inputMax ∧
    ∀ id ∈ sectionNumbers raw, id < firstFree (flushNumbers raw) ∨
      firstFree (flushNumbers raw) + ms.length ≤ id

theorem keepsBook_iff {raw out : Bytes} {ms : List Bytes} {nextId : Option ℕ} (hraw : ScansBook raw)
    (hat : BookAt raw ms out nextId)
    (hms : ∀ m ∈ ms, IsPlain m ∧ validText m = true ∧ canonicalEmail m = some m) :
    KeepsBook raw out ms ↔ FitsBook raw ms := by
  by_cases hnil : ms = []
  · have hout : out = raw := by
      rcases hat with ⟨-, h, -⟩ | ⟨n, -, h, -, -⟩
      · exact h
      · rw [h, hnil, importRecords, List.append_nil]
    refine iff_of_true ⟨by rw [hout]; exact hraw, ?_, ?_⟩ (.inl hnil)
    · rw [hout, List.drop_length]
      simp
    · rw [hnil]
      simp
  · obtain ⟨s, hs⟩ : ∃ s, scanLines [] bookStart (lines raw) = .done s := by
      cases h : scanLines [] bookStart (lines raw) with
      | invalid => exact absurd h (hraw.2 [])
      | present => exact absurd h (scanLines_nobody _ _)
      | done s => exact ⟨s, rfl⟩
    obtain ⟨n, hn, rfl, -, hmax⟩ := hat.resolve_left fun h => hnil h.1
    have hfree := bookNext_eq hs hn
    have htracks := scanLines_tracks tracks_start hs
    rw [List.nil_append] at htracks
    have hbound : n + ms.length ≤ sizeMax := hmax
    have hplain := fun m hm => (hms m hm).1
    have htakes : TakesAll s ms ↔ Headed raw ∧ (sectionNumbers raw).length + ms.length ≤ ruleMax ∧
        ∀ m ∈ ms, (trimLine (emailLine m)).length ≤ lineMax := by
      have hheaded := scanLines_headed hs
      simp only [bookStart, Bool.false_eq_true, false_or] at hheaded
      rw [TakesAll, htracks.records, hheaded]
      exact or_iff_right hnil
    have hnew : (sectionNumbers (raw ++ importRecords n ms)).drop (sectionNumbers raw).length =
        List.range' n ms.length := by
      rw [sectionNumbers_import hbound hplain, List.drop_left]
    obtain ⟨rest, hrest⟩ : ∃ rest, importRecords n ms = 10 :: rest := by
      obtain ⟨m, ms', rfl⟩ := List.exists_cons_of_ne_nil hnil
      exact importRecords_cons n m ms'
    have hdistinct : (∀ k ∈ List.range' n ms.length, k ∉ sectionNumbers raw) ↔
        ∀ id ∈ sectionNumbers raw, id < n ∨ n + ms.length ≤ id := by
      constructor
      · intro h id hid
        by_contra hno
        exact h id (List.mem_range'_1.mpr (by omega)) hid
      · intro h k hk hmem
        have hrange := List.mem_range'_1.mp hk
        have hside := h k hmem
        omega
    rw [KeepsBook, hnew, hdistinct, FitsBook, ← hfree, or_iff_right hnil]
    constructor
    · intro h
      obtain ⟨⟨hlen, hscan⟩, hids, -⟩ := h
      by_cases hall : TakesAll s ms
      · obtain ⟨h1, h2, h3⟩ := htakes.mp hall
        rw [List.length_append] at hlen
        exact ⟨h1, h2, h3, hlen, hids⟩
      · exact absurd ((scan_imports hs hbound hplain).2 hall rfl) (hscan [])
    · intro h
      obtain ⟨h1, h2, h3, hlen, hids⟩ := h
      have hall : TakesAll s ms := htakes.mpr ⟨h1, h2, h3⟩
      have hscan : ∀ wanted, scanLines wanted bookStart (lines (raw ++ importRecords n ms)) = .present ∨
          scanLines wanted bookStart (lines raw) = .done s := by
        intro wanted
        rcases scanLines_wanted wanted hs with hw | hw
        · rw [hrest]
          exact .inl (scan_stuck hw (by simp) rest)
        · exact .inr hw
      refine ⟨⟨by rw [List.length_append]; exact hlen, fun wanted => ?_⟩, hids, ?_⟩
      · rcases hscan wanted with hw | hw
        · rw [hw]
          simp
        · exact ((scan_imports hw hbound hplain).1 hall).1
      · intro m hm hcomma name check io hname ho hb hr
        obtain ⟨-, htext, hcanon⟩ := hms m hm
        have hpresent : scanLines m bookStart (lines (raw ++ importRecords n ms)) = .present := by
          rcases hscan m with hw | hw
          · exact hw
          · refine ((scan_imports hw hbound hplain).1 hall).2 m hm ?_
            rw [rdropWhile_of_last (canonicalEmail_ends hcanon).2, sameEmail_accepted hcanon hcomma]
            simp
        rw [contactAdd_accepted ⟨htext, hname, hcomma, by rw [hcanon]; simp⟩ hcanon (by simp) ho hb hr
          (by rw [Option.getD_some, List.length_append]; exact hlen)]
        simp only [Option.getD_some, hpresent]

/-- The books of an import and the contact command: for a book the scanner
takes, what the import makes of it is kept exactly when it fits. -/
theorem importMerge_books {current imported : List Rule} {original output : ImportFile → Bytes}
    (h : importMerge current imported original = .ok output) (himp : ∀ r ∈ imported, RuleOk r)
    {f : ImportFile} (hf : f = .whitelist ∨ f = .blacklist) (hbook : ScansBook (original f)) :
    KeepsBook (original f) (output f) (addedContacts current imported f) ↔
      FitsBook (original f) (addedContacts current imported f) := by
  obtain ⟨nextId, hat⟩ := importMerge_book h hf
  refine keepsBook_iff hbook hat fun m hm => ?_
  obtain ⟨r, hr, rfl⟩ := List.mem_map.mp hm
  obtain ⟨hmem, hr⟩ := List.mem_filter.mp hr
  simp only [Bool.and_eq_true, beq_iff_eq] at hr
  exact contact_predicate (himp r hmem) hf hr.1

/-- A contact an import brings. -/
def importedContact : Rule :=
  newRule (some ⟨.known, cstr "whitelist.abook", cstr "imported Sieve", [], by decide, by decide⟩) 1
    (cstr "known") (cstr "a@b") (cstr "known") .address 5 fieldFrom

theorem importedContact_ok : RuleOk importedContact := by
  have hnormal : Normal .address (cstr "a@b") :=
    ⟨by decide, by decide, by decide⟩
  exact (newRule_ok (by decide) hnormal (by decide) rfl (by decide) (by decide) (by decide)
    (by decide)).toRuleOk

/-- An import into an empty book writes a section without the format header in
front, and the next contact is refused. -/
theorem importMerge_empty_book :
    RuleOk importedContact ∧
      (importMerge [] [importedContact] fun _ => []).map (fun out => out .whitelist) =
        .ok (cstr "\n[0]\nname=Imported Sieve\nemail=a@b\n") ∧
      (contactAdd quietIo (some []) (cstr "a@b") [] true).rc = 0 ∧
      (contactAdd quietIo (some (cstr "\n[0]\nname=Imported Sieve\nemail=a@b\n")) (cstr "a@b") []
        false).rc = 4 :=
  ⟨importedContact_ok, by decide, by decide, by decide⟩

theorem importMerge_books_sample :
    KeepsBook (cstr "[format]\n") (cstr "[format]\n\n[0]\nname=Imported Sieve\nemail=a@b\n")
      [cstr "a@b"] := by
  have hmap : (importMerge [] [importedContact] fun _ => cstr "[format]\n").map (fun out => out .whitelist) =
      .ok (cstr "[format]\n\n[0]\nname=Imported Sieve\nemail=a@b\n") := by decide
  obtain ⟨output, hout, hbook⟩ := map_eq_ok_iff.mp hmap
  have hlines : lines (cstr "[format]\n") = [cstr "[format]"] := by decide
  have hscans : ScansBook (cstr "[format]\n") := by
    refine ⟨by decide, fun wanted => ?_⟩
    rw [hlines, scanLines_cons_done (scanLine_format rfl rfl)]
    simp [scanLines]
  have hms : addedContacts [] [importedContact] .whitelist = [cstr "a@b"] := by decide
  have hiff := importMerge_books hout (by simpa using importedContact_ok) (.inl rfl) hscans
  rw [hms, hbook] at hiff
  refine hiff.mpr (.inr ⟨⟨cstr "[format]", by rw [hlines]; simp, by decide⟩, ?_⟩)
  decide

end JaroFilter
