import JaroFilter.Policy.Text

/-!
# Domains and mailboxes (`policy.c:211-304`)

`validDomain`, `validMailbox` and `normalizeMailbox` as the policy applies them
to single NUL-free strings. The abstract side is a mailbox as a pair of a
decoded local part and a domain; `canonical` renders the pair with minimal
quoting and `normalizeMailbox_eq_some_iff` says that normalizing is exactly
reading the pair and rendering it again.
-/

namespace JaroFilter

open Lib

/-! ### Domains -/

/-- The label loop of `jf_valid_domain` (`policy.c:225`), with the length of
the current label and the byte before. -/
def validDomainLoop : ℕ → Byte → Bytes → Bool
  | label, prev, [] => label != 0 && prev != 45
  | label, prev, c :: s =>
    if c = 46 then
      if label = 0 ∨ prev = 45 then false else validDomainLoop 0 c s
    else if (!isAlnum c && c != 45) || (label == 0 && c == 45) || 63 < label + 1 then false
    else validDomainLoop (label + 1) c s

/-- `jf_valid_domain` (`policy.c:221`). -/
def validDomain (s : Bytes) : Bool :=
  if s.length = 0 ∨ 253 < s.length then false else validDomainLoop 0 0 s

def isLdh (c : Byte) : Bool := isAlnum c || c == 45

/-- A domain label: 1 to 63 letters, digits and hyphens, no hyphen at an end. -/
structure IsLabel (l : Bytes) : Prop where
  ne_nil : l ≠ []
  size : l.length ≤ 63
  ldh : ∀ c ∈ l, isLdh c = true
  head : l.head? ≠ some 45
  last : l.getLast? ≠ some 45

theorem validDomainLoop_bytes {label : ℕ} {prev : Byte} {s : Bytes}
    (h : validDomainLoop label prev s = true) : ∀ c ∈ s, isLdh c = true ∨ c = 46 := by
  induction s generalizing label prev with
  | nil => simp
  | cons c s ih =>
    intro d hd
    simp only [validDomainLoop] at h
    split at h
    · next hc =>
      split at h
      · exact absurd h (by simp)
      · rcases List.mem_cons.mp hd with rfl | hd
        · exact Or.inr hc
        · exact ih h d hd
    · split at h
      · exact absurd h (by simp)
      · next hc =>
        rcases List.mem_cons.mp hd with rfl | hd
        · left
          simp only [Bool.or_eq_true, not_or, Bool.and_eq_true, not_and] at hc
          simp only [isLdh, Bool.or_eq_true, beq_iff_eq]
          have hc1 := hc.1.1
          cases ha : isAlnum d <;> simp_all
        · exact ih h d hd

theorem validDomain_bytes {s : Bytes} (h : validDomain s = true) :
    ∀ c ∈ s, isLdh c = true ∨ c = 46 := by
  unfold validDomain at h
  split at h
  · exact absurd h (by simp)
  · exact validDomainLoop_bytes h

theorem validDomain_ne_nil {s : Bytes} (h : validDomain s = true) : s ≠ [] := by
  rintro rfl
  simp [validDomain] at h

theorem validDomain_length {s : Bytes} (h : validDomain s = true) : s.length ≤ 253 := by
  unfold validDomain at h
  split at h
  · exact absurd h (by simp)
  · omega

/-- What a run of label bytes must satisfy so far for the loop to reach it. -/
structure LabelRun (l : Bytes) : Prop where
  size : l.length ≤ 63
  ldh : ∀ c ∈ l, isLdh c = true
  head : l.head? ≠ some 45

theorem LabelRun.nil : LabelRun [] := ⟨by simp, by simp, by simp⟩

theorem LabelRun.label {l : Bytes} (h : LabelRun l) (hne : l.length ≠ 0)
    (hl : l.getLast?.getD 0 ≠ 45) : IsLabel l := by
  refine ⟨?_, h.size, h.ldh, h.head, ?_⟩
  · rintro rfl
    exact hne rfl
  · intro he
    rw [he] at hl
    exact hl rfl

theorem LabelRun.snoc {l : Bytes} {c : Byte} (h : LabelRun l)
    (hc : ((!isAlnum c && c != 45) || (l.length == 0 && c == 45) || 63 < l.length + 1) = false) :
    LabelRun (l ++ [c]) := by
  simp only [Bool.or_eq_false_iff, decide_eq_false_iff_not] at hc
  obtain ⟨⟨h1, h2⟩, h3⟩ := hc
  refine ⟨?_, ?_, ?_⟩
  · simp only [List.length_append, List.length_cons, List.length_nil]
    omega
  · intro d hd
    rcases List.mem_append.mp hd with hd | hd
    · exact h.ldh d hd
    · have hdc : d = c := by simpa using hd
      subst hdc
      simp only [isLdh, Bool.or_eq_true, beq_iff_eq]
      cases ha : isAlnum d <;> simp_all
  · cases hl : l with
    | nil =>
      rw [hl] at h2
      simpa using h2
    | cons a l' =>
      have := h.head
      rw [hl] at this
      simpa using this

/-- Up to a dot the loop has read complete labels, each with its dot. -/
theorem labels_of_validDomainLoop {run x y : Bytes} (hr : LabelRun run)
    (h : validDomainLoop run.length (run.getLast?.getD 0) (x ++ 46 :: y) = true) :
    ∃ ls : List Bytes, ls ≠ [] ∧ (∀ l ∈ ls, IsLabel l) ∧
      run ++ x ++ [46] = ls.flatMap (· ++ [46]) := by
  induction x generalizing run with
  | nil =>
    simp only [List.nil_append, validDomainLoop, if_true] at h
    split at h
    · exact absurd h (by simp)
    · next hc =>
      push Not at hc
      exact ⟨[run], by simp, by simpa using hr.label hc.1 hc.2, by simp⟩
  | cons c x ih =>
    simp only [List.cons_append, validDomainLoop] at h
    split at h
    · next hc =>
      subst hc
      split at h
      · exact absurd h (by simp)
      · next hd =>
        push Not at hd
        have hrun := hr.label hd.1 hd.2
        -- the byte before a fresh label is the dot itself, which the loop never compares
        have hfresh : validDomainLoop ([] : Bytes).length (([] : Bytes).getLast?.getD 0)
            (x ++ 46 :: y) = true := by
          cases x with
          | nil => simp [validDomainLoop] at h
          | cons e x => simpa [validDomainLoop] using h
        obtain ⟨ls, _, hls, heq⟩ := ih LabelRun.nil hfresh
        refine ⟨run :: ls, by simp, ?_, ?_⟩
        · intro l hl
          rcases List.mem_cons.mp hl with rfl | hl
          · exact hrun
          · exact hls l hl
        · simp only [List.nil_append] at heq
          simp [heq]
    · split at h
      · exact absurd h (by simp)
      · next hd =>
        have hsnoc := hr.snoc (Bool.eq_false_iff.mpr hd)
        have hnext : validDomainLoop (run ++ [c]).length ((run ++ [c]).getLast?.getD 0)
            (x ++ 46 :: y) = true := by
          simpa using h
        obtain ⟨ls, hne, hls, heq⟩ := ih hsnoc hnext
        exact ⟨ls, hne, hls, by simpa using heq⟩

theorem labels_of_validDomain {x y : Bytes} (h : validDomain (x ++ 46 :: y) = true) :
    ∃ ls : List Bytes, ls ≠ [] ∧ (∀ l ∈ ls, IsLabel l) ∧ x ++ [46] = ls.flatMap (· ++ [46]) := by
  unfold validDomain at h
  split at h
  · exact absurd h (by simp)
  · exact labels_of_validDomainLoop LabelRun.nil h

theorem validDomainLoop_fold (label : ℕ) (prev : Byte) (s : Bytes) :
    validDomainLoop label (foldByte prev) (foldBytes s) = validDomainLoop label prev s := by
  have hprev : ∀ p : Byte, (foldByte p = 45) ↔ (p = 45) := fun p =>
    foldByte_eq_iff (by decide) (by decide)
  have hdot : ∀ p : Byte, (foldByte p = 46) ↔ (p = 46) := fun p =>
    foldByte_eq_iff (by decide) (by decide)
  have hbeq : ∀ p : Byte, (foldByte p == 45) = (p == 45) := fun p => by
    rw [Bool.eq_iff_iff, beq_iff_eq, beq_iff_eq]
    exact hprev p
  induction s generalizing label prev with
  | nil => simp only [foldBytes_nil, validDomainLoop, bne, hbeq]
  | cons c s ih =>
    simp only [foldBytes_cons, validDomainLoop, hprev, hdot, isAlnum_foldByte, bne, hbeq, ih]

theorem validDomain_fold (s : Bytes) : validDomain (foldBytes s) = validDomain s := by
  have h := validDomainLoop_fold 0 0 s
  have h0 : foldByte 0 = 0 := by decide
  rw [h0] at h
  simp only [validDomain, foldBytes_length, h]

/-! ### Mailboxes -/

/-- The ASCII punctuation an atom admits (the `strchr` list of `policy.c:257`). -/
def atomSpecials : Bytes :=
  [33, 35, 36, 37, 38, 39, 42, 43, 45, 47, 61, 63, 94, 95, 96, 123, 124, 125, 126]

def isAtext (c : Byte) : Bool := 128 ≤ c || isAlnum c || atomSpecials.contains c

/-- The quoted local part of `jf_valid_mailbox` (`policy.c:244-249`), after the
opening quote: what follows the closing quote. `escaped` is set after a backslash. -/
def scanQuoted : Bool → Bytes → Option Bytes
  | _, [] => none
  | true, c :: s => if isControl c then none else scanQuoted false s
  | false, c :: s =>
    if c = 34 then some s
    else if c = 92 then scanQuoted true s
    else if isControl c then none else scanQuoted false s

/-- The unquoted local part (`policy.c:252-261`): what follows the `@`.
`component` is set inside an atom. -/
def scanAtoms : Bool → Bytes → Option Bytes
  | _, [] => none
  | component, c :: s =>
    if c = 64 then if component then some s else none
    else if c = 46 then if component then scanAtoms false s else none
    else if isAtext c then scanAtoms true s else none

/-- `jf_valid_mailbox` (`policy.c:240`). -/
def validMailbox (s : Bytes) : Bool :=
  match s with
  | [] => false
  | c :: rest =>
    if c = 34 then
      match scanQuoted false rest with
      | some (64 :: d) => validDomain d
      | _ => false
    else
      match scanAtoms false (c :: rest) with
      | some d => validDomain d
      | none => false

/-- The decode loop of `jf_normalize_mailbox` (`policy.c:273-276`): the local
part and what follows the closing quote. -/
def decodeQuoted : Bool → Bytes → Bytes × Bytes
  | _, [] => ([], [])
  | true, c :: s => (c :: (decodeQuoted false s).1, (decodeQuoted false s).2)
  | false, c :: s =>
    if c = 34 then ([], s)
    else if c = 92 then decodeQuoted true s
    else (c :: (decodeQuoted false s).1, (decodeQuoted false s).2)

/-- Whether a decoded local part cannot be written as dot-separated atoms
(`policy.c:280-289`). -/
def needsQuotes : Bool → Bytes → Bool
  | component, [] => !component
  | component, c :: s =>
    if c = 46 then !component || needsQuotes false s else !isAtext c || needsQuotes true s

/-- `jf_normalize_mailbox` (`policy.c:266`): minimal quoting of the local part. -/
def normalizeMailbox (s : Bytes) : Option Bytes :=
  if lineMax < s.length ∨ validMailbox s = false then none
  else if s.head? ≠ some 34 then some s
  else
    let n := (decodeQuoted false s.tail).1
    let tail := (decodeQuoted false s.tail).2
    if n = [] then none
    else if needsQuotes false n = false then some (n ++ tail)
    -- `out + tail > original + 1`, where the source's `tail` counts the NUL
    else if s.length + 1 < (escape n).length + 2 + (tail.length + 1) then none
    else some (34 :: escape n ++ 34 :: tail)

/-- The bytes after the last `@` (`strrchr(mailbox,'@')+1`). -/
def domainOf (s : Bytes) : Bytes := (s.reverse.takeWhile (· != 64)).reverse

/-- `strchr(domain,'.')` iterated: the bytes after each dot. -/
def suffixes : Bytes → List Bytes
  | [] => []
  | c :: s => if c = 46 then s :: suffixes s else suffixes s

/-! ### Mailboxes as local part and domain -/

/-- Minimal-quoting form of a decoded local part at a domain. -/
def canonical (l d : Bytes) : Bytes :=
  if needsQuotes false l then 34 :: escape l ++ 34 :: 64 :: d else l ++ 64 :: d

/-- A nonempty local part without control bytes at a valid domain. -/
structure IsMailbox (l d : Bytes) : Prop where
  ne_nil : l ≠ []
  text : ∀ c ∈ l, isControl c = false
  domain : validDomain d = true

/-- `s` spells the mailbox `l` at `d`, as dot-separated atoms or quoted. -/
def Spells (s l d : Bytes) : Prop :=
  (needsQuotes false l = false ∧ s = l ++ 64 :: d) ∨
    ∃ body, s = 34 :: body ∧ scanQuoted false body = some (64 :: d) ∧
      decodeQuoted false body = (l, 64 :: d)

/-- The byte classes of a local part, which folding keeps. -/
theorem isAtext_table : ∀ c : Byte,
    (isAtext c = true → (c ≠ 64 ∧ c ≠ 46 ∧ c ≠ 34 ∧ c ≠ 92) ∧ isControl c = false) ∧
      isAtext (foldByte c) = isAtext c ∧ isControl (foldByte c) = isControl c := by
  decide +kernel

theorem isAtext_of_ne {c : Byte} (h : isAtext c = true) : c ≠ 64 ∧ c ≠ 46 ∧ c ≠ 34 ∧ c ≠ 92 :=
  ((isAtext_table c).1 h).1

theorem isControl_of_isAtext {c : Byte} (h : isAtext c = true) : isControl c = false :=
  ((isAtext_table c).1 h).2

theorem isAtext_foldByte (c : Byte) : isAtext (foldByte c) = isAtext c := (isAtext_table c).2.1

theorem isControl_foldByte (c : Byte) : isControl (foldByte c) = isControl c :=
  (isAtext_table c).2.2

theorem scanAtoms_eq_some_iff {component : Bool} {s d : Bytes} :
    scanAtoms component s = some d ↔
      ∃ l, s = l ++ 64 :: d ∧ 64 ∉ l ∧ needsQuotes component l = false := by
  induction s generalizing component with
  | nil => simp [scanAtoms]
  | cons c s ih =>
    by_cases h64 : c = 64
    · subst h64
      cases component with
      | true =>
        simp only [scanAtoms, if_true, Option.some.injEq]
        constructor
        · rintro rfl
          exact ⟨[], by simp [needsQuotes]⟩
        · rintro ⟨l, heq, hl, _⟩
          cases l with
          | nil => simpa using heq
          | cons e l =>
            have he : e = 64 := by simpa using (congrArg List.head? heq).symm
            exact absurd (by simp [he]) hl
      | false =>
        simp only [scanAtoms, if_true, Bool.false_eq_true, if_false, false_iff, reduceCtorEq]
        rintro ⟨l, heq, hl, hq⟩
        cases l with
        | nil => simp [needsQuotes] at hq
        | cons e l =>
          have he : e = 64 := by simpa using (congrArg List.head? heq).symm
          exact hl (by simp [he])
    · -- the byte belongs to the local part, so a decomposition starts with it
      have hcons : ∀ b, (needsQuotes component (c :: b) = false →
          ∃ k, scanAtoms component (c :: s) = scanAtoms k s ∧
            needsQuotes component (c :: b) = needsQuotes k b) := by
        intro b hb
        by_cases h46 : c = 46
        · subst h46
          cases component with
          | true => exact ⟨false, by simp [scanAtoms], by simp [needsQuotes]⟩
          | false => simp [needsQuotes] at hb
        · have ha : isAtext c = true := by
            simp only [needsQuotes, h46, if_false, Bool.or_eq_false_iff, Bool.not_eq_false'] at hb
            exact hb.1
          exact ⟨true, by simp [scanAtoms, h64, h46, ha], by simp [needsQuotes, h46, ha]⟩
      constructor
      · intro h
        have hk : ∃ k, scanAtoms component (c :: s) = scanAtoms k s ∧
            ∀ b, needsQuotes k b = false → needsQuotes component (c :: b) = false := by
          by_cases h46 : c = 46
          · subst h46
            cases component with
            | true => exact ⟨false, by simp [scanAtoms], by simp [needsQuotes]⟩
            | false => simp [scanAtoms] at h
          · cases ha : isAtext c with
            | true =>
              exact ⟨true, by simp [scanAtoms, h64, h46, ha], by simp [needsQuotes, h46, ha]⟩
            | false => simp [scanAtoms, h64, h46, ha] at h
        obtain ⟨k, hs, hq⟩ := hk
        rw [hs] at h
        obtain ⟨l, rfl, hl, hn⟩ := ih.mp h
        refine ⟨c :: l, by simp, ?_, hq l hn⟩
        simp only [List.mem_cons, not_or]
        exact ⟨fun he => h64 he.symm, hl⟩
      · rintro ⟨l, heq, hl, hn⟩
        cases l with
        | nil =>
          have he : c = 64 := by simpa using congrArg List.head? heq
          exact absurd he h64
        | cons e l =>
          simp only [List.cons_append, List.cons.injEq] at heq
          obtain ⟨rfl, rfl⟩ := heq
          obtain ⟨k, hs, hq⟩ := hcons l hn
          rw [hs]
          refine ih.mpr ⟨l, rfl, ?_, by rw [← hq]; exact hn⟩
          exact fun hm => hl (List.mem_cons_of_mem _ hm)

theorem needsQuotes_false_bytes {component : Bool} {l : Bytes}
    (h : needsQuotes component l = false) : ∀ c ∈ l, isAtext c = true ∨ c = 46 := by
  induction l generalizing component with
  | nil => simp
  | cons c l ih =>
    intro d hd
    by_cases hc : c = 46
    · simp only [needsQuotes, hc, if_true, Bool.or_eq_false_iff] at h
      rcases List.mem_cons.mp hd with rfl | hd
      · exact Or.inr hc
      · exact ih h.2 d hd
    · simp only [needsQuotes, hc, if_false, Bool.or_eq_false_iff, Bool.not_eq_false'] at h
      rcases List.mem_cons.mp hd with rfl | hd
      · exact Or.inl h.1
      · exact ih h.2 d hd

theorem needsQuotes_false_ne_nil {l : Bytes} (h : needsQuotes false l = false) : l ≠ [] := by
  rintro rfl
  simp [needsQuotes] at h

theorem head_of_atoms {l : Bytes} (h : needsQuotes false l = false) (d : Bytes) :
    (l ++ 64 :: d).head? ≠ some 34 := by
  cases l with
  | nil => exact absurd rfl (needsQuotes_false_ne_nil h)
  | cons c l =>
    rcases needsQuotes_false_bytes h c (by simp) with ha | ha
    · simpa using (isAtext_of_ne ha).2.2.1
    · simp [ha]

/-- Scanning a quoted part decodes it: the same rest, and only text inside. -/
theorem decodeQuoted_of_scanQuoted {e : Bool} {s rest : Bytes} (h : scanQuoted e s = some rest) :
    (decodeQuoted e s).2 = rest ∧ (∀ c ∈ (decodeQuoted e s).1, isControl c = false) ∧
      (escape (decodeQuoted e s).1).length + 1 + rest.length ≤ s.length + e.toNat := by
  have hesc : ∀ (c : Byte) (l : Bytes), (escape (c :: l)).length ≤ (escape l).length + 2 := by
    intro c l
    by_cases hc : c = 34 ∨ c = 92
    · simp [escape_cons_special hc]
    · simp [escape_cons_plain hc]
  induction s generalizing e with
  | nil => simp [scanQuoted] at h
  | cons c s ih =>
    cases e with
    | true =>
      cases hc : isControl c with
      | true => simp [scanQuoted, hc] at h
      | false =>
        simp only [scanQuoted, hc, Bool.false_eq_true, if_false] at h
        obtain ⟨h1, h2, h3⟩ := ih h
        have he := hesc c (decodeQuoted false s).1
        simp only [decodeQuoted, List.mem_cons, forall_eq_or_imp, Bool.toNat_true,
          List.length_cons, Bool.toNat_false] at h3 ⊢
        exact ⟨h1, ⟨hc, h2⟩, by omega⟩
    | false =>
      by_cases h34 : c = 34
      · simp only [scanQuoted, h34, if_true, Option.some.injEq] at h
        subst h
        simp [decodeQuoted, h34]
        omega
      · by_cases h92 : c = 92
        · have hs : scanQuoted true s = some rest := by simpa [scanQuoted, h34, h92] using h
          have hd : decodeQuoted false (c :: s) = decodeQuoted true s := by
            simp [decodeQuoted, h92]
          obtain ⟨h1, h2, h3⟩ := ih hs
          rw [hd]
          simp only [Bool.toNat_true, List.length_cons, Bool.toNat_false] at h3 ⊢
          exact ⟨h1, h2, by omega⟩
        · cases hc : isControl c with
          | true => simp [scanQuoted, h34, h92, hc] at h
          | false =>
            simp only [scanQuoted, h34, h92, hc, Bool.false_eq_true, if_false] at h
            obtain ⟨h1, h2, h3⟩ := ih h
            have hplain := escape_cons_plain (c := c) (by tauto) (decodeQuoted false s).1
            simp only [decodeQuoted, h34, h92, if_false, List.mem_cons, forall_eq_or_imp,
              List.length_cons, hplain] at h3 ⊢
            exact ⟨h1, ⟨hc, h2⟩, by omega⟩

/-- Reading back an escaped local part. -/
theorem scanQuoted_escape {l : Bytes} (h : ∀ c ∈ l, isControl c = false) (rest : Bytes) :
    scanQuoted false (escape l ++ 34 :: rest) = some rest ∧
      decodeQuoted false (escape l ++ 34 :: rest) = (l, rest) := by
  induction l with
  | nil => simp [scanQuoted, decodeQuoted]
  | cons c l ih =>
    have hc := h c (by simp)
    have ih := ih fun d hd => h d (List.mem_cons_of_mem _ hd)
    by_cases hs : c = 34 ∨ c = 92
    · rw [escape_cons_special hs]
      simp [scanQuoted, decodeQuoted, hc, ih]
    · have h34 : c ≠ 34 := fun he => hs (Or.inl he)
      have h92 : c ≠ 92 := fun he => hs (Or.inr he)
      rw [escape_cons_plain hs]
      simp [scanQuoted, decodeQuoted, hc, h34, h92, ih]

theorem not_mem_at_of_validDomain {d : Bytes} (h : validDomain d = true) : 64 ∉ d := by
  intro hm
  rcases validDomain_bytes h 64 hm with h | h
  · exact absurd h (by decide)
  · exact absurd h (by decide)

/-- What the validator admits is a spelling of exactly one kind of mailbox; the
local part may still be empty, in a quoted spelling only. -/
theorem validMailbox_iff {s : Bytes} :
    validMailbox s = true ↔
      ∃ l d, Spells s l d ∧ (∀ c ∈ l, isControl c = false) ∧ validDomain d = true := by
  constructor
  · intro h
    cases s with
    | nil => simp [validMailbox] at h
    | cons c rest =>
      by_cases h34 : c = 34
      · subst h34
        simp only [validMailbox, if_true] at h
        split at h
        · next d hd =>
          obtain ⟨h1, h2, _⟩ := decodeQuoted_of_scanQuoted hd
          exact ⟨(decodeQuoted false rest).1, d, Or.inr ⟨rest, rfl, hd, by rw [← h1]⟩, h2, h⟩
        · exact absurd h (by simp)
      · simp only [validMailbox, h34, if_false] at h
        split at h
        · next d hd =>
          obtain ⟨l, heq, _, hn⟩ := scanAtoms_eq_some_iff.mp hd
          refine ⟨l, d, Or.inl ⟨hn, heq⟩, ?_, h⟩
          intro e he
          rcases needsQuotes_false_bytes hn e he with ha | ha
          · exact isControl_of_isAtext ha
          · rw [ha]
            decide
        · exact absurd h (by simp)
  · rintro ⟨l, d, hs | ⟨body, rfl, hscan, _⟩, _, hd⟩
    · obtain ⟨hn, rfl⟩ := hs
      have hne := needsQuotes_false_ne_nil hn
      have hat : 64 ∉ l := fun hm => by
        rcases needsQuotes_false_bytes hn 64 hm with ha | ha
        · exact (isAtext_of_ne ha).1 rfl
        · exact absurd ha (by decide)
      have hscan : scanAtoms false (l ++ 64 :: d) = some d :=
        scanAtoms_eq_some_iff.mpr ⟨l, rfl, hat, hn⟩
      have hhead := head_of_atoms hn d
      cases l with
      | nil => exact absurd rfl hne
      | cons c l =>
        have h34 : c ≠ 34 := by simpa using hhead
        simp only [List.cons_append] at hscan ⊢
        simp only [validMailbox, h34, if_false, hscan, hd]
    · simp only [validMailbox, if_true, hscan, hd]

/-- Normalizing reads a mailbox and renders it with minimal quoting; it
refuses exactly what spells no mailbox, or is too long. -/
theorem normalizeMailbox_eq_some_iff {s t : Bytes} :
    normalizeMailbox s = some t ↔
      s.length ≤ lineMax ∧ ∃ l d, IsMailbox l d ∧ Spells s l d ∧ t = canonical l d := by
  constructor
  · intro h
    unfold normalizeMailbox at h
    split at h
    · exact absurd h (by simp)
    · next hv =>
      push Not at hv
      have hlen : s.length ≤ lineMax := hv.1
      have hvalid : validMailbox s = true := by simpa using hv.2
      obtain ⟨l, d, hs, htext, hd⟩ := validMailbox_iff.mp hvalid
      rcases hs with ⟨hn, heq⟩ | ⟨body, rfl, hscan, hdec⟩
      · have hne := needsQuotes_false_ne_nil hn
        have hhead : s.head? ≠ some 34 := by
          rw [heq]
          exact head_of_atoms hn d
        simp only [hhead, ne_eq, not_false_eq_true, if_true, Option.some.injEq] at h
        refine ⟨hlen, l, d, ⟨hne, htext, hd⟩, Or.inl ⟨hn, heq⟩, ?_⟩
        rw [← h, heq, canonical, hn]
        simp
      · obtain ⟨_, _, hcap⟩ := decodeQuoted_of_scanQuoted hscan
        simp only [List.head?_cons, ne_eq, not_true_eq_false, if_false, List.tail_cons, hdec] at h
        split at h
        · exact absurd h (by simp)
        · next hne =>
          refine ⟨hlen, l, d, ⟨hne, htext, hd⟩, Or.inr ⟨body, rfl, hscan, hdec⟩, ?_⟩
          split at h
          · next hn =>
            rw [canonical, hn]
            simpa using h.symm
          · next hn =>
            split at h
            · exact absurd h (by simp)
            · have hq : needsQuotes false l = true := by simpa using hn
              rw [canonical, hq]
              simpa using h.symm
  · rintro ⟨hlen, l, d, hm, hs, rfl⟩
    have hvalid : validMailbox s = true := validMailbox_iff.mpr ⟨l, d, hs, hm.text, hm.domain⟩
    have hguard : ¬ (lineMax < s.length ∨ validMailbox s = false) := by
      simp only [hvalid, Bool.true_eq_false, or_false]
      omega
    rw [normalizeMailbox, if_neg hguard]
    rcases hs with ⟨hn, heq⟩ | ⟨body, rfl, hscan, hdec⟩
    · have hhead : s.head? ≠ some 34 := by
        rw [heq]
        exact head_of_atoms hn d
      rw [if_pos hhead, heq, canonical, hn]
      simp
    · obtain ⟨_, _, hcap⟩ := decodeQuoted_of_scanQuoted hscan
      rw [hdec] at hcap
      simp only [List.head?_cons, ne_eq, not_true_eq_false, if_false, List.tail_cons, hdec,
        hm.ne_nil, canonical]
      cases hn : needsQuotes false l with
      | false => simp
      | true =>
        have hroom : ¬ (body.length + 1 + 1 <
            (escape l).length + 2 + ((64 :: d).length + 1)) := by
          simp only [Bool.toNat_false, List.length_cons] at hcap ⊢
          omega
        simp only [Bool.true_eq_false, if_false, List.length_cons] at hroom ⊢
        simp [hroom]

/-! ### Canonical form -/

theorem canonical_spells {l d : Bytes} (h : IsMailbox l d) : Spells (canonical l d) l d := by
  cases hn : needsQuotes false l with
  | false => exact Or.inl ⟨hn, by simp [canonical, hn]⟩
  | true =>
    have hread := scanQuoted_escape h.text (64 :: d)
    exact Or.inr ⟨escape l ++ 34 :: 64 :: d, by simp [canonical, hn], hread.1, hread.2⟩

theorem normalizeMailbox_canonical {l d : Bytes} (h : IsMailbox l d)
    (hlen : (canonical l d).length ≤ lineMax) :
    normalizeMailbox (canonical l d) = some (canonical l d) :=
  normalizeMailbox_eq_some_iff.mpr ⟨hlen, l, d, h, canonical_spells h, rfl⟩

theorem canonical_length_le {s l d : Bytes} (h : Spells s l d) :
    (canonical l d).length ≤ s.length := by
  rcases h with ⟨hn, rfl⟩ | ⟨body, rfl, hscan, hdec⟩
  · simp [canonical, hn]
  · obtain ⟨_, _, hcap⟩ := decodeQuoted_of_scanQuoted hscan
    rw [hdec] at hcap
    have hplain : l.length ≤ (escape l).length := by
      clear hcap hdec hscan
      induction l with
      | nil => simp
      | cons c l ih =>
        by_cases hc : c = 34 ∨ c = 92
        · simp [escape_cons_special hc]; omega
        · simp [escape_cons_plain hc]; omega
    cases hn : needsQuotes false l <;> simp [canonical, hn] at hcap ⊢ <;> omega

theorem needsQuotes_fold (component : Bool) (l : Bytes) :
    needsQuotes component (foldBytes l) = needsQuotes component l := by
  have hdot : ∀ p : Byte, (foldByte p = 46) ↔ (p = 46) := fun p =>
    foldByte_eq_iff (by decide) (by decide)
  induction l generalizing component with
  | nil => rfl
  | cons c l ih => simp only [foldBytes_cons, needsQuotes, hdot, isAtext_foldByte, ih]

theorem foldBytes_canonical (l d : Bytes) :
    foldBytes (canonical l d) = canonical (foldBytes l) (foldBytes d) := by
  have h34 : foldByte 34 = 34 := by decide
  have h64 : foldByte 64 = 64 := by decide
  cases hn : needsQuotes false l <;>
    simp [canonical, needsQuotes_fold, hn, foldBytes_escape, h34, h64]

theorem IsMailbox.fold {l d : Bytes} (h : IsMailbox l d) :
    IsMailbox (foldBytes l) (foldBytes d) := by
  refine ⟨by simpa [foldBytes] using h.ne_nil, ?_, by rw [validDomain_fold]; exact h.domain⟩
  intro c hc
  obtain ⟨e, he, rfl⟩ := List.mem_map.mp hc
  rw [isControl_foldByte]
  exact h.text e he

/-- A folded normalized mailbox is its own normal form. -/
theorem normalizeMailbox_fold {s t : Bytes} (h : normalizeMailbox s = some t) :
    normalizeMailbox (foldBytes t) = some (foldBytes t) := by
  obtain ⟨hlen, l, d, hm, hs, rfl⟩ := normalizeMailbox_eq_some_iff.mp h
  have hle := canonical_length_le hs
  rw [foldBytes_canonical]
  refine normalizeMailbox_canonical hm.fold ?_
  rw [← foldBytes_canonical, foldBytes_length]
  omega

theorem normalizeMailbox_length {s t : Bytes} (h : normalizeMailbox s = some t) :
    t.length ≤ s.length := by
  obtain ⟨_, l, d, _, hs, rfl⟩ := normalizeMailbox_eq_some_iff.mp h
  exact canonical_length_le hs

theorem decodeQuoted_utf8 {e : Bool} {s rest : Bytes} (h : scanQuoted e s = some rest)
    (hv : validUtf8 s = true) :
    validUtf8 (decodeQuoted e s).1 = true ∧ validUtf8 rest = true := by
  suffices hpre : ∀ pre : Bytes, validUtf8 (pre ++ s) = true →
      validUtf8 (pre ++ (decodeQuoted e s).1) = true ∧ validUtf8 rest = true by
    simpa using hpre [] (by simpa using hv)
  clear hv
  induction s generalizing e with
  | nil => simp [scanQuoted] at h
  | cons c s ih =>
    intro pre hp
    cases e with
    | true =>
      have hs : scanQuoted false s = some rest := by
        simp only [scanQuoted] at h
        split at h
        · exact absurd h (by simp)
        · exact h
      simpa [decodeQuoted] using ih hs (pre ++ [c]) (by simpa using hp)
    | false =>
      by_cases h34 : c = 34
      · subst h34
        obtain ⟨h1, h2⟩ := (validUtf8_append_ascii (by decide) (by decide) _ _).mp hp
        have hs : s = rest := by simpa [scanQuoted] using h
        exact ⟨by simpa [decodeQuoted] using h1, hs ▸ h2⟩
      · by_cases h92 : c = 92
        · subst h92
          obtain ⟨h1, h2⟩ := (validUtf8_append_ascii (by decide) (by decide) _ _).mp hp
          have hs : scanQuoted true s = some rest := by simpa [scanQuoted] using h
          obtain ⟨h3, h4⟩ := ih hs [] (by simpa using h2)
          refine ⟨?_, h4⟩
          rw [validUtf8_append _ h1]
          simpa [decodeQuoted] using h3
        · have hs : scanQuoted false s = some rest := by
            simp only [scanQuoted, h34, h92, if_false] at h
            split at h
            · exact absurd h (by simp)
            · exact h
          simpa [decodeQuoted, h34, h92] using ih hs (pre ++ [c]) (by simpa using hp)

theorem normalizeMailbox_utf8 {s t : Bytes} (h : normalizeMailbox s = some t)
    (hv : validUtf8 s = true) : validUtf8 t = true := by
  obtain ⟨_, l, d, _, hs, rfl⟩ := normalizeMailbox_eq_some_iff.mp h
  rcases hs with ⟨hn, rfl⟩ | ⟨body, rfl, hscan, hdec⟩
  · simpa [canonical, hn] using hv
  · rw [validUtf8_cons_ascii (by decide) (by decide)] at hv
    obtain ⟨h1, h2⟩ := decodeQuoted_utf8 hscan hv
    rw [hdec] at h1
    cases hn : needsQuotes false l with
    | false =>
      simp only [canonical, hn, Bool.false_eq_true, if_false]
      rw [validUtf8_append _ h1]
      exact h2
    | true =>
      simp only [canonical, hn, if_true]
      rw [List.cons_append, validUtf8_cons_ascii (by decide) (by decide),
        validUtf8_append _ (validUtf8_escape h1), validUtf8_cons_ascii (by decide) (by decide)]
      exact h2

/-! ### Domains of mailboxes -/

theorem domainOf_append {l d : Bytes} (h : 64 ∉ d) : domainOf (l ++ 64 :: d) = d := by
  have hrev : ∀ c ∈ d.reverse, (c != 64) = true := by
    intro c hc
    have hcd : c ∈ d := List.mem_reverse.mp hc
    simp only [bne_iff_ne, ne_eq]
    rintro rfl
    exact h hcd
  simp [domainOf, List.takeWhile_append_of_pos hrev]

theorem domainOf_canonical {l d : Bytes} (h : 64 ∉ d) : domainOf (canonical l d) = d := by
  cases hn : needsQuotes false l with
  | false => simp only [canonical, hn, Bool.false_eq_true, if_false, domainOf_append h]
  | true =>
    have hsplit : canonical l d = (34 :: escape l ++ [34]) ++ 64 :: d := by simp [canonical, hn]
    rw [hsplit, domainOf_append h]

theorem mem_suffixes {d y : Bytes} : y ∈ suffixes d ↔ ∃ x, d = x ++ 46 :: y := by
  induction d with
  | nil => simp [suffixes]
  | cons c d ih =>
    by_cases hc : c = 46
    · subst hc
      simp only [suffixes, if_true, List.mem_cons, ih]
      constructor
      · rintro (rfl | ⟨x, rfl⟩)
        · exact ⟨[], rfl⟩
        · exact ⟨46 :: x, rfl⟩
      · rintro ⟨x, hx⟩
        cases x with
        | nil => exact Or.inl (by simpa using hx.symm)
        | cons e x => exact Or.inr ⟨x, by simpa using (List.cons.inj hx).2⟩
    · simp only [suffixes, hc, if_false, ih]
      constructor
      · rintro ⟨x, rfl⟩
        exact ⟨c :: x, rfl⟩
      · rintro ⟨x, hx⟩
        cases x with
        | nil => exact absurd (List.cons.inj hx).1 hc
        | cons e x => exact ⟨x, (List.cons.inj hx).2⟩

end JaroFilter
