import JaroFilter.Contact.Book
import JaroFilter.Policy.Normalize

/-!
# Appended contacts (`contact.c:63-152`)

The scanner reads back what the writer appends: a header numbered above all
others and two fields. It does so unless the number or one of the fields is
beyond what the scanner takes, and the writer does not ask.
-/

namespace JaroFilter

open Lib

/-! ### Lines of the scanner -/

theorem rdropWhile_concat {p : Byte → Bool} {a : Bytes} {c : Byte} (hc : p c = false) (x : Bytes) :
    (a ++ c :: x).rdropWhile p = a ++ c :: x.rdropWhile p := by
  induction x using List.reverseRecOn with
  | nil => simp [hc]
  | append_singleton x d ih =>
    have hassoc : a ++ c :: (x ++ [d]) = (a ++ c :: x) ++ [d] := by simp
    rw [hassoc, List.rdropWhile_concat, List.rdropWhile_concat]
    split
    · exact ih
    · exact hassoc.symm

theorem trimLine_append {a x : Bytes} {c : Byte} (hh : ∀ d ∈ (a ++ [c]).head?, isBlank d = false)
    (hc : (isBlank c || c == 13) = false) :
    trimLine (a ++ c :: x) = a ++ c :: x.rdropWhile fun d => isBlank d || d == 13 := by
  have hdrop : (a ++ c :: x).dropWhile isBlank = a ++ c :: x := by
    cases a with
    | nil =>
      have hc := hh c (by simp)
      simp [hc]
    | cons d a =>
      have hd := hh d (by simp)
      simp [hd]
  rw [trimLine, hdrop, rdropWhile_concat hc]

/-- The number a line announces. -/
def sectionNumber (l : Bytes) : Option ℕ :=
  if (trimLine l).head? = some 91 then headerNumber (trimLine l) else none

def sectionNumbers (raw : Bytes) : List ℕ := (lines raw).filterMap sectionNumber

/-- The counters after a scan, by the numbers it met. -/
structure Tracks (s : BookScan) (ids : List ℕ) : Prop where
  records : s.records = ids.length
  limit : ids.length ≤ ruleMax
  above : ∀ id ∈ ids, id < s.next
  largest : 0 < s.next → s.next - 1 ∈ ids
  small : ∀ id ∈ ids, id < sizeMax
  format : s.format = false → ids = []

theorem tracks_start : Tracks bookStart [] :=
  ⟨rfl, Nat.zero_le _, by simp, by simp [bookStart], by simp, by simp⟩

theorem decimalLoop_le {s : Bytes} {n m : ℕ} (hn : n ≤ sizeMax) (h : decimalLoop n s = some m) :
    m ≤ sizeMax := by
  induction s generalizing n with
  | nil =>
    cases h
    exact hn
  | cons c s ih =>
    simp only [decimalLoop] at h
    split at h
    · cases h
    · rename_i hno
      simp only [not_or, Nat.not_lt] at hno
      have hdigit : c.toNat - 48 ≤ 9 := by
        have hc := UInt8.le_iff_toNat_le.mp (UInt8.not_lt.mp hno.2.1)
        have h57 : (57 : Byte).toNat = 57 := rfl
        omega
      refine ih ?_ h
      have hfit := hno.2.2
      have hmul : n * 10 ≤ sizeMax - (c.toNat - 48) := (Nat.le_div_iff_mul_le (by omega)).mp hfit
      have hmax : 9 ≤ sizeMax := by decide
      omega

theorem headerNumber_format : headerNumber (cstr "[format]") = none := by decide

theorem scanHeader_tracks {s s' : BookScan} {t : Bytes} {ids : List ℕ} (hs : Tracks s ids)
    (h : scanHeader s t = .done s') : Tracks s' (ids ++ (headerNumber t).toList) := by
  unfold scanHeader at h
  split at h
  · rename_i ht
    split at h
    · cases h
    · rename_i hfresh
      cases h
      rw [ht, headerNumber_format, Option.toList_none, List.append_nil]
      exact ⟨hs.records, hs.limit, hs.above, hs.largest, hs.small, by simp⟩
  · split at h
    · cases h
    · rename_i hformat
      split at h
      · cases h
      · rename_i id hid
        split at h
        · cases h
        · rename_i hfits
          cases h
          have hle : id ≤ sizeMax := by
            unfold headerNumber at hid
            split at hid
            · cases hid
            · exact decimalLoop_le (Nat.zero_le _) hid
          have hrec := hs.records
          rw [hid, Option.toList_some]
          refine ⟨by simp [hrec], ?_, ?_, ?_, ?_, fun hf => absurd hf hformat⟩
          · simp only [List.length_append, List.length_singleton]
            omega
          · intro x hx
            rcases List.mem_append.mp hx with hx | hx
            · have hlt := hs.above x hx
              simp only
              split <;> omega
            · rw [List.mem_singleton.mp hx]
              simp only
              split <;> omega
          · intro hpos
            simp only at hpos ⊢
            split
            · simp
            · rename_i hnext
              exact List.mem_append_left _ (hs.largest (by omega))
          · intro x hx
            rcases List.mem_append.mp hx with hx | hx
            · exact hs.small x hx
            · rw [List.mem_singleton.mp hx]
              omega

theorem scanField_done {wanted : Bytes} {s s' : BookScan} {t : Bytes}
    (h : scanField wanted s t = .done s') : s' = s := by
  simp only [scanField] at h
  split at h
  · cases h
  · split at h <;> cases h
    rfl

theorem scanLine_tracks {wanted : Bytes} {s s' : BookScan} {l : Bytes} {ids : List ℕ}
    (hs : Tracks s ids) (h : scanLine wanted s l = .done s') :
    Tracks s' (ids ++ (sectionNumber l).toList) := by
  simp only [scanLine] at h
  rw [sectionNumber]
  split at h
  · cases h
  · split at h
    · rename_i hskip
      cases h
      have hhead : ¬ (trimLine l).head? = some 91 := by
        rcases hskip with ht | ht <;> rw [ht] <;> decide
      rw [if_neg hhead, Option.toList_none, List.append_nil]
      exact hs
    · split at h
      · rename_i hhead
        rw [if_pos hhead]
        exact scanHeader_tracks hs h
      · rename_i hhead
        rw [if_neg hhead, Option.toList_none, List.append_nil, scanField_done h]
        exact hs

/-- After a scan the counters tell the numbers of all its headers. -/
theorem scanLines_tracks {wanted : Bytes} {s s' : BookScan} {ls : List Bytes} {ids : List ℕ}
    (hs : Tracks s ids) (h : scanLines wanted s ls = .done s') :
    Tracks s' (ids ++ ls.filterMap sectionNumber) := by
  induction ls generalizing s ids with
  | nil =>
    cases h
    simpa using hs
  | cons l ls ih =>
    simp only [scanLines] at h
    split at h
    · rename_i mid hmid
      have hrest := ih (scanLine_tracks hs hmid) h
      rw [List.append_assoc] at hrest
      cases hn : sectionNumber l with
      | none => simpa [hn] using hrest
      | some id => simpa [hn] using hrest
    · rename_i hno
      exact absurd h (hno s')

theorem scanLines_append {wanted : Bytes} {s : BookScan} {as bs : List Bytes} :
    scanLines wanted s (as ++ bs) =
      match scanLines wanted s as with
      | .done t => scanLines wanted t bs
      | r => r := by
  induction as generalizing s with
  | nil => rfl
  | cons a as ih =>
    simp only [List.cons_append, scanLines]
    cases scanLine wanted s a with
    | invalid => rfl
    | present => rfl
    | done t => exact ih

/-- Another mailbox is found or the scan is the same. -/
theorem scanLine_wanted {wanted : Bytes} {s t : BookScan} {l : Bytes} (wanted' : Bytes)
    (h : scanLine wanted s l = .done t) :
    scanLine wanted' s l = .present ∨ scanLine wanted' s l = .done t := by
  simp only [scanLine] at h ⊢
  split
  · rename_i hbad
    rw [if_pos hbad] at h
    cases h
  · rename_i hok
    rw [if_neg hok] at h
    split
    · rename_i hskip
      rw [if_pos hskip] at h
      exact .inr h
    · rename_i hskip
      rw [if_neg hskip] at h
      split
      · rename_i hhead
        rw [if_pos hhead] at h
        exact .inr h
      · rename_i hhead
        rw [if_neg hhead] at h
        have hst := scanField_done h
        subst hst
        simp only [scanField] at h ⊢
        split
        · rename_i hinvalid
          rw [if_pos hinvalid] at h
          cases h
        · split
          · exact .inl rfl
          · exact .inr rfl

theorem scanLines_wanted {wanted : Bytes} {s t : BookScan} {ls : List Bytes} (wanted' : Bytes)
    (h : scanLines wanted s ls = .done t) :
    scanLines wanted' s ls = .present ∨ scanLines wanted' s ls = .done t := by
  induction ls generalizing s with
  | nil => exact .inr h
  | cons l ls ih =>
    simp only [scanLines] at h ⊢
    split at h
    · rename_i mid hmid
      rcases scanLine_wanted wanted' hmid with hl | hl
      · exact .inl (by rw [hl])
      · rw [hl]
        exact ih h
    · rename_i hno
      exact absurd h (hno t)

/-- The line break in front of a record ends a last line without one. -/
theorem lines_append (a rest : Bytes) : ∃ blank : List Bytes, (∀ l ∈ blank, l = []) ∧
    lines (a ++ 10 :: rest) = lines a ++ blank ++ lines rest := by
  induction a with
  | nil => exact ⟨[[]], by simp, by simp [lines]⟩
  | cons c a ih =>
    obtain ⟨blank, hblank, heq⟩ := ih
    by_cases hc : c = 10
    · exact ⟨blank, hblank, by simp [lines, hc, heq]⟩
    · cases ha : lines a with
      | cons l ls =>
        refine ⟨blank, hblank, ?_⟩
        simp [lines, hc, heq, ha]
      | nil =>
        refine ⟨[], by simp, ?_⟩
        have hnil : a = [] := by
          cases a with
          | nil => rfl
          | cons d a =>
            simp only [lines] at ha
            split at ha
            · cases ha
            · split at ha <;> cases ha
        subst hnil
        simp [lines, hc]

theorem scanLine_nil (wanted : Bytes) (s : BookScan) : scanLine wanted s [] = .done s := by
  simp [scanLine, trimLine]

theorem scanLines_blank {wanted : Bytes} {s : BookScan} {blank : List Bytes} (h : ∀ l ∈ blank, l = []) :
    scanLines wanted s blank = .done s := by
  induction blank with
  | nil => rfl
  | cons l ls ih =>
    rw [h l (by simp), scanLines, scanLine_nil]
    exact ih fun x hx => h x (List.mem_cons_of_mem _ hx)

/-! ### The lines of a record -/

/-- Bytes a field may have: no control bytes. -/
def IsPlain (s : Bytes) : Prop := ∀ c ∈ s, isControl c = false

theorem IsPlain.not_mem {s : Bytes} (h : IsPlain s) {c : Byte} (hc : isControl c = true) : c ∉ s := by
  intro hm
  rw [h c hm] at hc
  cases hc

/-- The field names the writer uses. -/
def bookKeys : List Bytes := [cstr "program", cstr "version", cstr "name", cstr "email"]

theorem bookKeys_facts : ∀ key ∈ bookKeys, 61 ∉ key ∧ 0 ∉ key ∧ key ≠ [] ∧
    key.rdropWhile isBlank = key ∧
    ∀ c ∈ key.head?, isBlank c = false ∧ c ≠ 35 ∧ c ≠ 91 := by decide +kernel

theorem trimLine_field {key : Bytes} (hkey : key ∈ bookKeys) (x : Bytes) :
    trimLine (key ++ 61 :: x) = key ++ 61 :: x.rdropWhile fun d => isBlank d || d == 13 := by
  obtain ⟨-, -, hne, -, hhead⟩ := bookKeys_facts key hkey
  refine trimLine_append ?_ rfl
  intro d hd
  cases key with
  | nil => exact absurd rfl hne
  | cons k key => exact (hhead d (by simpa using hd)).1

/-- A field line of the writer is a field for the scanner unless it is too
long. -/
theorem scanLine_field {wanted : Bytes} {s : BookScan} (hs : s.format = true) {key x : Bytes}
    (hkey : key ∈ bookKeys) (hx : 0 ∉ x) :
    scanLine wanted s (key ++ 61 :: x) =
      if lineMax < (trimLine (key ++ 61 :: x)).length then .invalid
      else if s.inSection = true ∧ key = cstr "email" ∧
        sameEmail wanted false false [] (x.rdropWhile fun d => isBlank d || d == 13) = true then .present
      else .done s := by
  obtain ⟨heq, hnul, hne, htrim, hhead⟩ := bookKeys_facts key hkey
  obtain ⟨v, hv⟩ : ∃ v, v = x.rdropWhile fun d => isBlank d || d == 13 := ⟨_, rfl⟩
  have hline := trimLine_field hkey x
  rw [← hv] at hline ⊢
  have hvnul : 0 ∉ v := fun h => hx (by
    rw [hv] at h
    exact (List.rdropWhile_prefix _ _).subset h)
  have hzero : 0 ∉ key ++ 61 :: v := by
    intro h
    rcases List.mem_append.mp h with h | h
    · exact hnul h
    · rcases List.mem_cons.mp h with h | h
      · exact absurd h (by decide)
      · exact hvnul h
  obtain ⟨k, rest, rfl⟩ := List.exists_cons_of_ne_nil hne
  obtain ⟨-, h35, h91⟩ := hhead k rfl
  have htake : (k :: rest ++ 61 :: v).takeWhile (· != 61) = k :: rest := by
    rw [List.takeWhile_append_of_pos fun c hc => by simpa using fun he : c = 61 => heq (he ▸ hc)]
    simp
  have hdrop : (k :: rest ++ 61 :: v).drop ((k :: rest).length + 1) = v := by simp
  have hskip : ¬ (k :: rest ++ 61 :: v = [] ∨ (k :: rest ++ 61 :: v).head? = some 35) := by
    simpa using h35
  have hopen : ¬ (k :: rest ++ 61 :: v).head? = some 91 := by simpa using h91
  simp only [scanLine, hline, hzero, or_false]
  by_cases hlong : lineMax < (k :: rest ++ 61 :: v).length
  · rw [if_pos hlong, if_pos hlong]
  · rw [if_neg hlong, if_neg hlong, if_neg hskip, if_neg hopen]
    have hlen : ¬ (s.format = false ∨ (k :: rest).length = (k :: rest ++ 61 :: v).length) := by
      simp [hs]
    simp only [scanField, htake]
    rw [if_neg hlen, htrim, hdrop]

theorem trimLine_header (n : ℕ) :
    trimLine (91 :: decimalText n ++ [93]) = 91 :: decimalText n ++ [93] := by
  have h := trimLine_append (a := 91 :: decimalText n) (x := []) (c := 93) (by simp [isBlank])
    (by decide)
  simpa using h

theorem headerNumber_decimalText {n : ℕ} (hn : n ≤ sizeMax) :
    headerNumber (91 :: decimalText n ++ [93]) = some n := by
  have hthree : ¬ (91 :: decimalText n ++ [93]).length < 3 := by
    have hne := List.length_pos_of_ne_nil (decimalText_ne_nil n)
    simp only [List.cons_append, List.length_cons, List.length_append, List.length_nil]
    omega
  have hinner : (91 :: decimalText n ++ [93]).tail.dropLast = decimalText n := by simp
  have hlast : (91 :: decimalText n ++ [93]).getLast? = some 93 := List.getLast?_concat
  rw [headerNumber, if_neg (by simp only [hlast, ne_eq, not_true_eq_false, or_false, hthree,
    not_false_eq_true]), hinner, decimalLoop_decimalText hn]

theorem scanLine_header (wanted : Bytes) (s : BookScan) {n : ℕ} (hn : n ≤ sizeMax) :
    scanLine wanted s (91 :: decimalText n ++ [93]) =
      if s.format = false ∨ n = sizeMax ∨ ruleMax < s.records + 1 then .invalid
      else .done { s with
        records := s.records + 1
        next := if s.next ≤ n then n + 1 else s.next
        inSection := true } := by
  have hlen : (decimalText n).length ≤ 20 := by
    by_cases h0 : n = 0
    · subst h0
      decide
    · rw [decimalText, if_neg h0, List.length_map, List.length_reverse]
      have hdigits : n < 10 ^ 20 := lt_of_le_of_lt hn (by decide)
      exact (Nat.digits_length_le_iff (by decide) n).mpr hdigits
  have hshort : ¬ lineMax < (91 :: decimalText n ++ [93]).length := by
    simp only [List.cons_append, List.length_cons, List.length_append, List.length_nil, lineMax]
    omega
  have hzero : 0 ∉ 91 :: decimalText n ++ [93] := by
    have hdigits := decimalText_nul n
    simp [hdigits]
  have hformat : 91 :: decimalText n ++ [93] ≠ cstr "[format]" := by
    intro h
    have hmem : (102 : Byte) ∈ 91 :: decimalText n ++ [93] := by
      rw [h]
      decide
    have hdigit : (102 : Byte) ∈ decimalText n := by simpa using hmem
    exact absurd (decimalText_digits n 102 hdigit).2 (by decide)
  have hskip : ¬ (91 :: decimalText n ++ [93] = [] ∨
      (91 :: decimalText n ++ [93]).head? = some 35) := by simp
  have hopen : (91 :: decimalText n ++ [93]).head? = some 91 := rfl
  simp only [scanLine, trimLine_header]
  rw [if_neg (by simp only [hshort, hzero, or_false, not_false_eq_true]), if_neg hskip, if_pos hopen,
    scanHeader, if_neg hformat]
  cases s.format with
  | false => rfl
  | true =>
    simp only [Bool.true_eq_false, if_false, false_or, headerNumber_decimalText hn]

theorem scanLine_format {wanted : Bytes} {s : BookScan} (hs : s.format = false) (hr : s.records = 0) :
    scanLine wanted s (cstr "[format]") = .done { s with format := true, inSection := false } := by
  have htrim : trimLine (cstr "[format]") = cstr "[format]" := by decide
  have hok : ¬ (lineMax < (cstr "[format]").length ∨ 0 ∈ cstr "[format]") := by decide
  have hskip : ¬ (cstr "[format]" = [] ∨ (cstr "[format]").head? = some 35) := by decide
  simp only [scanLine, htrim]
  rw [if_neg hok, if_neg hskip, if_pos (by decide), scanHeader, if_pos rfl, if_neg (by simp [hs, hr])]

/-! ### Accepted fields -/

/-- What the call lets through to the file. -/
def Accepted (email name : Bytes) : Prop :=
  validText email = true ∧ validText name = true ∧ 44 ∉ email ∧ canonicalEmail email ≠ none

theorem validText_plain {s : Bytes} (h : validText s = true) : IsPlain s := by
  simp only [validText, Bool.and_eq_true, List.all_eq_true, Bool.not_eq_true'] at h
  exact h.2

theorem isLdh_ends : ∀ c : Byte, (isLdh c || c == 46) = true → (isBlank c || c == 13) = false := by
  decide +kernel

theorem isAtext_ends : ∀ c : Byte, (isAtext c || c == 46) = true → isBlank c = false := by
  decide +kernel

/-- A mailbox has no outer blanks. -/
theorem canonicalEmail_ends {email a : Bytes} (h : canonicalEmail email = some a) :
    (∀ c ∈ email.head?, isBlank c = false) ∧ ∀ c ∈ email.getLast?, (isBlank c || c == 13) = false := by
  unfold canonicalEmail at h
  split at h
  · obtain ⟨t, ht, -⟩ := Option.map_eq_some_iff.mp h
    obtain ⟨-, l, d, hm, hs, -⟩ := normalizeMailbox_eq_some_iff.mp ht
    obtain ⟨dinit, e, hd⟩ := (List.eq_nil_or_concat d).resolve_left (validDomain_ne_nil hm.domain)
    rw [List.concat_eq_append] at hd
    have he : (isBlank e || e == 13) = false := by
      refine isLdh_ends e ?_
      rcases validDomain_bytes hm.domain e (by simp [hd]) with hl | hl <;> simp [hl]
    rcases spells_iff.mp hs with ⟨hn, rfl⟩ | ⟨q, -, rfl⟩
    · refine ⟨?_, ?_⟩
      · intro c hc
        cases l with
        | nil => exact absurd rfl hm.ne_nil
        | cons b l =>
          obtain rfl : b = c := by simpa using hc
          refine isAtext_ends b ?_
          rcases needsQuotes_false_bytes hn b (by simp) with hb | hb <;> simp [hb]
      · intro c hc
        have hlast : (l ++ 64 :: d).getLast? = some e := by
          rw [hd]
          simp [List.getLast?_append, List.getLast?_cons]
        rw [hlast] at hc
        obtain rfl : e = c := by simpa using hc
        exact he
    · refine ⟨?_, ?_⟩
      · intro c hc
        obtain rfl : 34 = c := by simpa using hc
        rfl
      · intro c hc
        have hlast : (34 :: q ++ 34 :: 64 :: d).getLast? = some e := by
          rw [hd]
          simp [List.getLast?_append, List.getLast?_cons]
        rw [hlast] at hc
        obtain rfl : e = c := by simpa using hc
        exact he
  · cases h

theorem rdropWhile_of_last {p : Byte → Bool} {s : Bytes} (h : ∀ c ∈ s.getLast?, p c = false) :
    s.rdropWhile p = s := by
  rw [List.rdropWhile_eq_self_iff]
  intro hne
  rw [h _ (List.getLast_mem_getLast? hne)]
  decide

/-- Without a comma there is one piece. -/
theorem sameEmail_one {s : Bytes} (hs : 44 ∉ s) (wanted : Bytes) (quote escape : Bool) (piece : Bytes) :
    sameEmail wanted quote escape piece s = sameMailbox wanted (piece ++ s) := by
  induction s generalizing quote escape piece with
  | nil => cases escape <;> simp [sameEmail]
  | cons c s ih =>
    have hc : ¬ c = 44 := fun h => hs (by simp [h])
    have ih := fun q e p => ih (fun h => hs (List.mem_cons_of_mem _ h)) q e p
    cases escape with
    | true => simp [sameEmail, ih]
    | false =>
      simp only [sameEmail, ih, hc, false_and, if_false, List.append_assoc, List.singleton_append,
        ite_self]

theorem sameEmail_accepted {email a : Bytes} (h : canonicalEmail email = some a) (hc : 44 ∉ email)
    (wanted : Bytes) : sameEmail wanted false false [] email = (a == wanted) := by
  obtain ⟨hh, hl⟩ := canonicalEmail_ends h
  have htrim : trimBlanks email = email := by
    refine trimBlanks_of_ends hh fun c hc => ?_
    have hend := hl c hc
    rw [Bool.or_eq_false_iff] at hend
    exact hend.1
  rw [sameEmail_one hc, List.nil_append, sameMailbox, htrim, h]
  rfl

/-! ### Reading a record back -/

def shownName (email name : Bytes) : Bytes := if name = [] then email else name

def nameLine (email name : Bytes) : Bytes := cstr "name" ++ 61 :: shownName email name

def emailLine (email : Bytes) : Bytes := cstr "email" ++ 61 :: email

def headerLines (format : Bool) : List Bytes :=
  if format then [] else [cstr "[format]", cstr "program" ++ 61 :: cstr "abook",
    cstr "version" ++ 61 :: cstr "0.6.1", []]

/-- One numbered section. -/
def sectionLines (n : ℕ) (email name : Bytes) : List Bytes :=
  [91 :: decimalText n ++ [93], nameLine email name, emailLine email]

def recordLines (s : BookScan) (email name : Bytes) : List Bytes :=
  headerLines s.format ++ sectionLines s.next email name

theorem lines_join {ls : List Bytes} (h : ∀ l ∈ ls, 10 ∉ l) : lines (ls.flatMap (· ++ [10])) = ls := by
  induction ls with
  | nil => rfl
  | cons l ls ih =>
    rw [List.flatMap_cons, List.append_assoc, List.singleton_append,
      lines_append_lf l _ (h l (by simp)), ih fun x hx => h x (List.mem_cons_of_mem _ hx)]

theorem contactRecord_eq (s : BookScan) (email name : Bytes) :
    contactRecord s email name = 10 :: (recordLines s email name).flatMap (· ++ [10]) := by
  have hparts : cstr "\n[" = [10, 91] ∧ cstr "]\nname=" = 93 :: 10 :: cstr "name" ++ [61] ∧
      cstr "\nemail=" = 10 :: cstr "email" ++ [61] ∧ cstr "\n" = [10] ∧
      formatHeader = 10 :: (headerLines false).dropLast.flatMap (· ++ [10]) ∧
      headerLines false = (headerLines false).dropLast ++ [[]] := by decide
  obtain ⟨h1, h2, h3, h4, h5, h6⟩ := hparts
  rw [contactRecord, recordLines, h1, h2, h3, h4]
  cases s.format with
  | true =>
    simp [headerLines, sectionLines, nameLine, emailLine, shownName]
  | false =>
    rw [h5, h6]
    simp [sectionLines, nameLine, emailLine, shownName]

theorem sectionLines_lf {email name : Bytes} (he : IsPlain email) (hn : IsPlain name) (n : ℕ) :
    ∀ l ∈ sectionLines n email name, 10 ∉ l := by
  have hshown : 10 ∉ shownName email name := by
    unfold shownName
    split
    · exact he.not_mem (by decide)
    · exact hn.not_mem (by decide)
  intro l hl
  simp only [sectionLines, List.mem_cons, List.not_mem_nil, or_false] at hl
  rcases hl with rfl | rfl | rfl
  · intro h
    have hdigit : (10 : Byte) ∈ decimalText n := by simpa using h
    exact absurd (decimalText_digits _ 10 hdigit).1 (by decide)
  · intro h
    rcases List.mem_append.mp h with h | h
    · exact absurd h (by decide)
    · rcases List.mem_cons.mp h with h | h
      · exact absurd h (by decide)
      · exact hshown h
  · intro h
    rcases List.mem_append.mp h with h | h
    · exact absurd h (by decide)
    · rcases List.mem_cons.mp h with h | h
      · exact absurd h (by decide)
      · exact he.not_mem (by decide) h

theorem recordLines_lf {email name : Bytes} (he : IsPlain email) (hn : IsPlain name) (s : BookScan) :
    ∀ l ∈ recordLines s email name, 10 ∉ l := by
  have hheader : ∀ f, ∀ l ∈ headerLines f, (10 : Byte) ∉ l := by decide
  intro l hl
  rcases List.mem_append.mp hl with hl | hl
  · exact hheader _ l hl
  · exact sectionLines_lf he hn _ l hl

theorem scanLines_cons_done {wanted : Bytes} {s t : BookScan} {l : Bytes} {ls : List Bytes}
    (h : scanLine wanted s l = .done t) : scanLines wanted s (l :: ls) = scanLines wanted t ls := by
  rw [scanLines, h]

/-- The header the writer puts in front when the book has none. -/
theorem scan_headerLines (wanted : Bytes) {s : BookScan} {ids : List ℕ} (hs : Tracks s ids) :
    ∃ t, scanLines wanted s (headerLines s.format) = .done t ∧ t.format = true ∧
      t.records = s.records ∧ t.next = s.next := by
  cases hf : s.format with
  | true => exact ⟨s, rfl, hf, rfl, rfl⟩
  | false =>
    have hrec : s.records = 0 := by rw [hs.records, hs.format hf, List.length_nil]
    obtain ⟨t, ht⟩ : ∃ t : BookScan, t = { s with format := true, inSection := false } := ⟨_, rfl⟩
    have htf : t.format = true ∧ t.inSection = false := by
      rw [ht]
      exact ⟨rfl, rfl⟩
    have hfields : ∀ key x, key ∈ bookKeys → 0 ∉ x → (trimLine (key ++ 61 :: x)).length ≤ lineMax →
        scanLine wanted t (key ++ 61 :: x) = .done t := by
      intro key x hkey hx hlen
      rw [scanLine_field htf.1 hkey hx, if_neg (by omega), if_neg (by simp [htf.2])]
    refine ⟨t, ?_, htf.1, by rw [ht], by rw [ht]⟩
    have hlines : headerLines false = [cstr "[format]", cstr "program" ++ 61 :: cstr "abook",
      cstr "version" ++ 61 :: cstr "0.6.1", []] := rfl
    rw [hlines, scanLines_cons_done (scanLine_format hf hrec), ← ht,
      scanLines_cons_done (hfields _ _ (by decide) (by decide) (by decide)),
      scanLines_cons_done (hfields _ _ (by decide) (by decide) (by decide)),
      scanLines_cons_done (scanLine_nil wanted t)]
    rfl

/-- Whether the scanner takes what the writer appends: a number it can hold and
two lines within its limit. -/
def Readable (s : BookScan) (email name : Bytes) : Prop :=
  s.next ≠ sizeMax ∧ (trimLine (nameLine email name)).length ≤ lineMax ∧
    (trimLine (emailLine email)).length ≤ lineMax

instance (s : BookScan) (email name : Bytes) : Decidable (Readable s email name) :=
  inferInstanceAs (Decidable (_ ∧ _ ∧ _))

/-- The scanner on one section, whatever its number. -/
theorem scan_section (wanted : Bytes) (t : BookScan) {n : ℕ} (hn : n ≤ sizeMax) {email name : Bytes}
    (he : IsPlain email) (hname : IsPlain name) :
    scanLines wanted t (sectionLines n email name) =
      if t.format = false ∨ n = sizeMax ∨ ruleMax < t.records + 1 ∨
        lineMax < (trimLine (nameLine email name)).length ∨
        lineMax < (trimLine (emailLine email)).length then .invalid
      else if sameEmail wanted false false []
        (email.rdropWhile fun d => isBlank d || d == 13) = true then .present
      else .done { t with
        records := t.records + 1
        next := if t.next ≤ n then n + 1 else t.next
        inSection := true } := by
  have hfname : cstr "name" ∈ bookKeys ∧ cstr "email" ∈ bookKeys ∧ cstr "name" ≠ cstr "email" := by
    decide
  obtain ⟨hkname, hkemail, hne⟩ := hfname
  have hshown : 0 ∉ shownName email name := by
    unfold shownName
    split
    · exact he.not_mem (by decide)
    · exact hname.not_mem (by decide)
  rw [sectionLines]
  simp only [scanLines]
  rw [scanLine_header wanted t hn]
  by_cases hmax : t.format = false ∨ n = sizeMax ∨ ruleMax < t.records + 1
  · rw [if_pos hmax, if_pos (by tauto)]
  · have ht : t.format = true := by
      rw [← Bool.not_eq_false]
      exact fun h => hmax (.inl h)
    rw [if_neg hmax]
    simp only [ht]
    rw [nameLine, scanLine_field rfl hkname hshown, ← nameLine]
    by_cases hlong : lineMax < (trimLine (nameLine email name)).length
    · rw [if_pos hlong, if_pos (by tauto)]
    · rw [if_neg hlong, if_neg (by simp only [hne, false_and, and_false, not_false_eq_true])]
      simp only
      rw [emailLine, scanLine_field rfl hkemail (he.not_mem (by decide)), ← emailLine]
      by_cases hover : lineMax < (trimLine (emailLine email)).length
      · rw [if_pos hover, if_pos (by tauto)]
      · have hok : ¬ (true = false ∨ n = sizeMax ∨ ruleMax < t.records + 1 ∨
            lineMax < (trimLine (nameLine email name)).length ∨
            lineMax < (trimLine (emailLine email)).length) := by
          rw [ht] at hmax
          tauto
        rw [if_neg hover, if_neg hok]
        simp only [true_and]
        cases sameEmail wanted false false [] (email.rdropWhile fun d => isBlank d || d == 13) <;> rfl

/-- The scanner on the lines of one record. -/
theorem scan_record {wanted : Bytes} {s : BookScan} {ids : List ℕ} (hs : Tracks s ids)
    (hroom : s.records < ruleMax) {email name a : Bytes} (he : IsPlain email) (hn : IsPlain name)
    (hc : 44 ∉ email) (ha : canonicalEmail email = some a) :
    scanLines wanted s (recordLines s email name) =
      if Readable s email name then
        if a = wanted then .present else .done ⟨true, true, s.records + 1, s.next + 1⟩
      else .invalid := by
  obtain ⟨t, hheader, htf, htr, htn⟩ := scan_headerLines wanted hs
  have hnext : s.next ≤ sizeMax := by
    by_cases hpos : 0 < s.next
    · have hsmall := hs.small _ (hs.largest hpos)
      omega
    · omega
  have hreadable : (t.format = false ∨ s.next = sizeMax ∨ ruleMax < t.records + 1 ∨
      lineMax < (trimLine (nameLine email name)).length ∨
      lineMax < (trimLine (emailLine email)).length) ↔ ¬ Readable s email name := by
    rw [Readable, htr, htf]
    simp only [Bool.true_eq_false, false_or]
    omega
  rw [recordLines, scanLines_append, hheader]
  simp only
  rw [scan_section wanted t hnext he hn, rdropWhile_of_last (canonicalEmail_ends ha).2,
    sameEmail_accepted ha hc]
  by_cases hread : Readable s email name
  · rw [if_neg (by rw [hreadable]; exact not_not_intro hread), if_pos hread]
    by_cases hw : a = wanted
    · rw [if_pos hw, if_pos (by simp [hw])]
    · rw [if_neg hw, if_neg (by simp [hw]), htf, htr, htn, if_pos (le_refl _)]
  · rw [if_pos (hreadable.mpr hread), if_neg hread]

/-- The scanner on a book with one more record. -/
theorem scan_appended {wanted : Bytes} {raw : Bytes} {s : BookScan}
    (hscan : scanLines wanted bookStart (lines raw) = .done s) (hroom : s.records < ruleMax)
    {email name a : Bytes} (he : IsPlain email) (hn : IsPlain name) (hc : 44 ∉ email)
    (ha : canonicalEmail email = some a) :
    scanLines wanted bookStart (lines (raw ++ contactRecord s email name)) =
      if Readable s email name then
        if a = wanted then .present else .done ⟨true, true, s.records + 1, s.next + 1⟩
      else .invalid := by
  have hs := scanLines_tracks tracks_start hscan
  rw [contactRecord_eq]
  obtain ⟨blank, hblank, hlines⟩ := lines_append raw ((recordLines s email name).flatMap (· ++ [10]))
  rw [hlines, lines_join (recordLines_lf he hn s), scanLines_append, scanLines_append, hscan]
  simp only [scanLines_blank hblank]
  exact scan_record hs hroom he hn hc ha

theorem scan_appended_present {wanted : Bytes} {raw : Bytes}
    (hscan : scanLines wanted bookStart (lines raw) = .present) (s : BookScan) (email name : Bytes) :
    scanLines wanted bookStart (lines (raw ++ contactRecord s email name)) = .present := by
  rw [contactRecord_eq]
  obtain ⟨blank, -, hlines⟩ := lines_append raw ((recordLines s email name).flatMap (· ++ [10]))
  rw [hlines, List.append_assoc, scanLines_append, hscan]

/-! ### One call after another -/

theorem accepted_iff {email name : Bytes} : Accepted email name ↔
    ¬ (validText email = false ∨ validText name = false ∨ 44 ∈ email) ∧ canonicalEmail email ≠ none := by
  simp only [Accepted, not_or, Bool.not_eq_false, and_assoc]

/-- What a call that read the book did. -/
theorem contactAdd_accepted {io : BookIo} {book : Option Bytes} {email name a : Bytes} {check : Bool}
    (hacc : Accepted email name) (ha : canonicalEmail email = some a)
    (hfile : ¬ (check = true ∧ book = none)) (ho : io.opened = true) (hb : io.busy = false)
    (hr : io.readable = true) (hlen : (book.getD []).length ≤ inputMax) :
    contactAdd io book email name check =
      match scanLines a bookStart (lines (book.getD [])) with
      | .invalid => unsupportedBook (some (book.getD []))
      | .present => ⟨1, none, some (book.getD [])⟩
      | .done s => if check then ⟨0, none, some (book.getD [])⟩
        else appendContact io (book.getD []) s email name := by
  have hfields := (accepted_iff.mp hacc).1
  have hread : ¬ (io.readable = false ∨ inputMax < (book.getD []).length) := by
    rw [hr]
    simp only [Bool.true_eq_false, false_or]
    omega
  rw [contactAdd, if_neg hfields, ha]
  simp only
  rw [if_neg hfile, if_neg (by rw [ho]; decide), if_neg (by rw [hb]; decide)]
  exact if_neg hread

/-- A call that ended well appended one record. -/
theorem contactAdd_ok {io : BookIo} {book : Option Bytes} {email name : Bytes}
    (h : (contactAdd io book email name false).rc = 0) :
    ∃ a s, Accepted email name ∧ canonicalEmail email = some a ∧
      scanLines a bookStart (lines (book.getD [])) = .done s ∧ s.records < ruleMax ∧
      (book.getD []).length + (contactRecord s email name).length ≤ inputMax ∧
      (contactAdd io book email name false).book = some (book.getD [] ++ contactRecord s email name) := by
  unfold contactAdd at h ⊢
  split at h
  · cases h
  · rename_i hfields
    rw [if_neg hfields]
    split at h
    · cases h
    · rename_i a ha
      rw [if_neg (by simp)] at h ⊢
      split at h
      · cases h
      · rename_i hopen
        rw [if_neg hopen]
        simp only at h ⊢
        split at h
        · cases h
        · rename_i hbusy
          rw [if_neg hbusy]
          split at h
          · cases h
          · rename_i hread
            rw [if_neg hread]
            split at h
            · cases h
            · cases h
            · rename_i s hscan
              have htracks := scanLines_tracks tracks_start hscan
              rw [if_neg (by decide)] at h
              simp only [appendContact] at h
              split at h
              · cases h
              · rename_i hroom
                split at h
                · cases h
                · rename_i hsame
                  split at h
                  · cases h
                  · rename_i hstop
                    have hlimit := htracks.limit
                    have hrec := htracks.records
                    refine ⟨a, s, accepted_iff.mpr ⟨hfields, by rw [ha]; simp⟩, ha, hscan, ?_, ?_, ?_⟩
                    · simp only [List.nil_append] at hlimit hrec
                      omega
                    · omega
                    · simp only [appendContact, if_neg hroom, if_neg hsame, hstop]
                      rfl

/-- Every spelling of a contact finds it, and the book stays as it is. -/
def FindsSame (new email : Bytes) : Prop :=
  ∀ email' name' check io, Accepted email' name' → canonicalEmail email' = canonicalEmail email →
    io.opened = true → io.busy = false → io.readable = true →
    contactAdd io (some new) email' name' check = ⟨1, none, some new⟩

/-- The book is full for a contact: by its count or by its size. -/
def AtLimit (new email name : Bytes) : Prop :=
  ∃ a s, canonicalEmail email = some a ∧ scanLines a bookStart (lines new) = .done s ∧
    (s.records = ruleMax ∨ inputMax < new.length + (contactRecord s email name).length)

/-- Other contacts are refused at the limits only. -/
def TakesOthers (new email : Bytes) : Prop :=
  ∀ email' name' check io, Accepted email' name' → canonicalEmail email' ≠ canonicalEmail email →
    (contactAdd io (some new) email' name' check).rc = 4 → AtLimit new email' name'

/-- The number above all others and the two lines are within the scanner's
limits. -/
def Fits (raw email name : Bytes) : Prop :=
  sizeMax - 1 ∉ sectionNumbers raw ∧ (trimLine (nameLine email name)).length ≤ lineMax ∧
    (trimLine (emailLine email)).length ≤ lineMax

theorem readable_iff_fits {wanted raw : Bytes} {s : BookScan}
    (hscan : scanLines wanted bookStart (lines raw) = .done s) (email name : Bytes) :
    Readable s email name ↔ Fits raw email name := by
  have htracks := scanLines_tracks tracks_start hscan
  rw [List.nil_append] at htracks
  refine and_congr ?_ Iff.rfl
  have hmax : 0 < sizeMax := by decide
  constructor
  · intro hne hmem
    have hlt := htracks.above _ hmem
    have hlargest := htracks.small _ (htracks.largest (by omega))
    omega
  · intro hnot hnext
    have hlargest := htracks.largest (by omega)
    rw [hnext] at hlargest
    exact hnot hlargest

/-- What the scanner makes of a call on the new book. -/
theorem scan_next {raw email name a : Bytes} {s : BookScan} (a' : Bytes)
    (hscan : scanLines a bookStart (lines raw) = .done s) (hroom : s.records < ruleMax)
    (hacc : Accepted email name) (ha : canonicalEmail email = some a) (hfits : Readable s email name) :
    scanLines a' bookStart (lines (raw ++ contactRecord s email name)) ≠ .invalid ∧
      (a' = a → scanLines a' bookStart (lines (raw ++ contactRecord s email name)) = .present) := by
  obtain ⟨he, hn, hc, -⟩ := hacc
  have happ := fun w (hw : scanLines w bookStart (lines raw) = .done s) =>
    scan_appended hw hroom (validText_plain he) (validText_plain hn) hc ha
  constructor
  · rcases scanLines_wanted a' hscan with hw | hw
    · rw [scan_appended_present hw]
      exact fun h => by cases h
    · rw [happ a' hw, if_pos hfits]
      split <;> exact fun h => by cases h
  · intro heq
    subst heq
    rw [happ a' hscan, if_pos hfits, if_pos rfl]

/-- A contact added with status 0 stands behind the old bytes under a number
above all others. The new book answers every spelling of it with status 1 and
takes other contacts up to the limits exactly when the number and the two lines
fit. -/
theorem contactAdd_closed {io : BookIo} {book : Option Bytes} {email name : Bytes}
    (h : (contactAdd io book email name false).rc = 0) :
    ∃ s new, (contactAdd io book email name false).book = some new ∧
      new = book.getD [] ++ contactRecord s email name ∧
      (∀ id ∈ sectionNumbers (book.getD []), id < s.next) ∧
      (FindsSame new email ∧ TakesOthers new email ↔ Fits (book.getD []) email name) := by
  obtain ⟨a, s, hacc, ha, hscan, hroom, hsize, hbook⟩ := contactAdd_ok h
  have htracks := scanLines_tracks tracks_start hscan
  rw [List.nil_append] at htracks
  have hlen : (book.getD [] ++ contactRecord s email name).length ≤ inputMax := by
    rw [List.length_append]
    exact hsize
  have hfile : ∀ check : Bool, ¬ (check = true ∧
      some (book.getD [] ++ contactRecord s email name) = none) := by simp
  refine ⟨s, _, hbook, rfl, htracks.above, ?_⟩
  rw [← readable_iff_fits hscan]
  constructor
  · intro hclosed
    by_contra hno
    have hsame := hclosed.1 email name false quietIo hacc rfl rfl rfl rfl
    rw [contactAdd_accepted hacc ha (hfile false) rfl rfl rfl hlen] at hsame
    simp only [Option.getD_some] at hsame
    have hinvalid := scan_appended hscan hroom (validText_plain hacc.1) (validText_plain hacc.2.1)
      hacc.2.2.1 ha
    rw [if_neg hno] at hinvalid
    rw [hinvalid] at hsame
    exact absurd (congrArg Added.rc hsame) (by simp [unsupportedBook, refused])
  · intro hfits
    constructor
    · intro email' name' check io' hacc' heq ho hb hr
      have ha' : canonicalEmail email' = some a := heq.trans ha
      rw [contactAdd_accepted hacc' ha' (hfile check) ho hb hr hlen]
      simp only [Option.getD_some]
      rw [(scan_next a hscan hroom hacc ha hfits).2 rfl]
    · intro email' name' check io' hacc' _ hrc
      obtain ⟨a', ha'⟩ := Option.ne_none_iff_exists'.mp hacc'.2.2.2
      have hnext := (scan_next a' hscan hroom hacc ha hfits).1
      obtain ⟨new, hnew⟩ : ∃ new, new = book.getD [] ++ contactRecord s email name := ⟨_, rfl⟩
      rw [← hnew] at hrc hnext ⊢
      unfold contactAdd at hrc
      rw [if_neg (accepted_iff.mp hacc').1, ha'] at hrc
      simp only [Option.getD_some] at hrc
      rw [if_neg (by simp)] at hrc
      split at hrc
      · cases hrc
      · split at hrc
        · cases hrc
        · split at hrc
          · cases hrc
          · split at hrc
            · rename_i hinvalid
              exact absurd hinvalid hnext
            · cases hrc
            · rename_i s' hs'
              split at hrc
              · cases hrc
              · simp only [appendContact] at hrc
                split at hrc
                · rename_i hlimit
                  exact ⟨a', s', ha', hs', hlimit⟩
                · split at hrc
                  · cases hrc
                  · split at hrc <;> cases hrc

/-- A book whose last number is the largest but one: the contact added to it
gets the largest, which the scanner does not take. -/
def fullBook : Bytes := cstr "[format]\n[18446744073709551614]\n"

theorem contactAdd_largest_number :
    (contactAdd quietIo (some fullBook) (cstr "a@b") [] false).rc = 0 ∧
      (contactAdd quietIo (contactAdd quietIo (some fullBook) (cstr "a@b") [] false).book
        (cstr "a@b") [] false).rc = 4 := by
  decide

/-- A book with one contact in it, and an unknown key. -/
def keptBook : Bytes := cstr "[format]\nprogram=abook\n\n[7]\nname=B\nnick=b\nemail=b@c\n"

theorem contactAdd_closed_sample : ∃ s new,
    (contactAdd quietIo (some keptBook) (cstr "a@b") (cstr "A") false).book = some new ∧
      new = keptBook ++ contactRecord s (cstr "a@b") (cstr "A") ∧ 7 < s.next ∧
      FindsSame new (cstr "a@b") ∧ TakesOthers new (cstr "a@b") := by
  obtain ⟨s, new, hbook, hnew, habove, hiff⟩ :=
    @contactAdd_closed quietIo (some keptBook) (cstr "a@b") (cstr "A") (by decide)
  exact ⟨s, new, hbook, hnew, habove 7 (by decide), hiff.mpr ⟨by decide, by decide, by decide⟩⟩

end JaroFilter
