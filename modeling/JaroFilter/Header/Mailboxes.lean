import JaroFilter.Header.Address

/-!
# The two mailbox readers

`validMailbox` reads policy inputs, `rfc822ParseMailboxes` message headers. A
string the first admits is emitted by the second as it is; a mailbox the second
emits is refused by the first only for a label, for its length or for a control
byte.
-/

namespace JaroFilter

open Lib

namespace Rfc822

/-- Texts joined by dots. -/
def dotJoin (as : List Bytes) : Bytes := [46].intercalate as

@[simp] theorem dotJoin_one (a : Bytes) : dotJoin [a] = a := by simp [dotJoin]

@[simp] theorem dotJoin_cons (a b : Bytes) (as : List Bytes) :
    dotJoin (a :: b :: as) = a ++ 46 :: dotJoin (b :: as) := by simp [dotJoin]

/-- Dot-separated parts of one kind. -/
def DotParts (part : Bytes → Prop) (s : Bytes) : Prop :=
  ∃ as : List Bytes, as ≠ [] ∧ (∀ a ∈ as, part a) ∧ s = dotJoin as

theorem DotParts.one {part : Bytes → Prop} {a : Bytes} (h : part a) : DotParts part a :=
  ⟨[a], by simp, by simpa using h, by simp⟩

theorem DotParts.cons {part : Bytes → Prop} {a s : Bytes} (ha : part a) (h : DotParts part s) :
    DotParts part (a ++ 46 :: s) := by
  obtain ⟨as, hne, has, rfl⟩ := h
  cases as with
  | nil => exact absurd rfl hne
  | cons b as => exact ⟨a :: b :: as, by simp, by simpa [ha] using has, by simp⟩

/-- Induction over the parts from the left. -/
theorem DotParts.rec_left {part : Bytes → Prop} {motive : Bytes → Prop}
    (one : ∀ a, part a → motive a) (cons : ∀ a s, part a → motive s → motive (a ++ 46 :: s))
    {s : Bytes} (h : DotParts part s) : motive s := by
  obtain ⟨as, hne, has, rfl⟩ := h
  induction as with
  | nil => exact absurd rfl hne
  | cons a as ih =>
    have ha := has a (by simp)
    cases as with
    | nil => simpa using one a ha
    | cons b as =>
      rw [dotJoin_cons]
      exact cons a _ ha (ih (by simp) fun c hc => has c (List.mem_cons_of_mem _ hc))

/-! ### Domains -/

/-- The byte before a fresh label is never compared. -/
theorem validDomainLoop_fresh (prev : Byte) {s : Bytes} (hs : s ≠ []) (h46 : s.head? ≠ some 46) :
    validDomainLoop 0 prev s = validDomainLoop 0 0 s := by
  cases s with
  | nil => exact absurd rfl hs
  | cons c s =>
    have hc : c ≠ 46 := by simpa using h46
    simp [validDomainLoop, hc]

theorem validDomainLoop_zero {prev : Byte} {s : Bytes} (h : validDomainLoop 0 prev s = true) :
    s ≠ [] ∧ s.head? ≠ some 46 := by
  cases s with
  | nil => simp [validDomainLoop] at h
  | cons c s =>
    refine ⟨by simp, ?_⟩
    intro hc
    have hc : c = 46 := by simpa using hc
    simp [validDomainLoop, hc] at h

theorem labels_of_loop {run s : Bytes} (hr : LabelRun run)
    (h : validDomainLoop run.length (run.getLast?.getD 0) s = true) :
    DotParts IsLabel (run ++ s) := by
  induction s generalizing run with
  | nil =>
    simp only [validDomainLoop, Bool.and_eq_true, bne_iff_ne, ne_eq] at h
    rw [List.append_nil]
    exact .one (hr.label h.1 h.2)
  | cons c s ih =>
    simp only [validDomainLoop] at h
    split at h
    · next hc =>
      subst hc
      split at h
      · exact absurd h (by simp)
      · next hd =>
        push Not at hd
        obtain ⟨hne, h46⟩ := validDomainLoop_zero h
        rw [validDomainLoop_fresh 46 hne h46] at h
        have hrest : DotParts IsLabel ([] ++ s) := ih LabelRun.nil h
        exact .cons (hr.label hd.1 hd.2) hrest
    · split at h
      · exact absurd h (by simp)
      · next hd =>
        have hsnoc := hr.snoc (Bool.eq_false_iff.mpr hd)
        have hrest : DotParts IsLabel (run ++ [c] ++ s) := ih hsnoc (by simpa using h)
        simpa using hrest

/-- The loop over the rest of a label. -/
theorem loop_label {r b t : Bytes} (h : IsLabel (r ++ b)) :
    validDomainLoop r.length (r.getLast?.getD 0) (b ++ t) =
      validDomainLoop (r ++ b).length ((r ++ b).getLast?.getD 0) t := by
  induction b generalizing r with
  | nil => simp
  | cons c b ih =>
    have hc : isLdh c = true := h.ldh c (by simp)
    have h46 : c ≠ 46 := by
      rintro rfl
      exact absurd hc (by decide)
    have hstep : ((!isAlnum c && c != 45) || (r.length == 0 && c == 45) ||
        decide (63 < r.length + 1)) = false := by
      have hsize := h.size
      have hhead := h.head
      simp only [List.length_append, List.length_cons] at hsize
      simp only [isLdh, Bool.or_eq_true, beq_iff_eq] at hc
      simp only [Bool.or_eq_false_iff, decide_eq_false_iff_not]
      refine ⟨⟨?_, ?_⟩, by omega⟩
      · rcases hc with hc | hc <;> simp [hc]
      · cases r with
        | nil => simpa using hhead
        | cons _ _ => simp
    have hnext : IsLabel (r ++ [c] ++ b) := by simpa using h
    have ih := ih hnext
    rw [List.cons_append, validDomainLoop, if_neg h46, if_neg (by rw [hstep]; simp)]
    simpa using ih

theorem validDomain_iff {d : Bytes} :
    validDomain d = true ↔ d.length ≤ 253 ∧ DotParts IsLabel d := by
  constructor
  · intro h
    refine ⟨validDomain_length h, ?_⟩
    unfold validDomain at h
    split at h
    · exact absurd h (by simp)
    · simpa using labels_of_loop LabelRun.nil h
  · rintro ⟨hlen, h⟩
    have hlast : ∀ {a : Bytes}, IsLabel a → a.length ≠ 0 ∧ a.getLast?.getD 0 ≠ 45 := by
      intro a ha
      refine ⟨by simpa using ha.ne_nil, ?_⟩
      intro h45
      cases hl : a.getLast? with
      | none => simp [hl] at h45
      | some e =>
        rw [hl] at h45
        exact ha.last (by rw [hl, ← h45]; rfl)
    have hloop : validDomainLoop 0 0 d = true := by
      refine DotParts.rec_left (motive := fun d => validDomainLoop 0 0 d = true) ?_ ?_ h
      · intro a ha
        obtain ⟨hne, h45⟩ := hlast ha
        have hread := loop_label (r := []) (b := a) (t := []) (by simpa using ha)
        simp only [List.nil_append, List.append_nil, List.length_nil, List.getLast?_nil,
          Option.getD_none] at hread
        rw [hread]
        simp [validDomainLoop, hne, h45]
      · intro a s ha ih
        obtain ⟨hne, h45⟩ := hlast ha
        obtain ⟨hs, h46⟩ := validDomainLoop_zero ih
        have hread := loop_label (r := []) (b := a) (t := 46 :: s) (by simpa using ha)
        simp only [List.nil_append, List.length_nil, List.getLast?_nil,
          Option.getD_none] at hread
        rw [hread, validDomainLoop, if_pos rfl, if_neg (by simp [hne, h45]),
          validDomainLoop_fresh 46 hs h46, ih]
    have hne : d.length ≠ 0 := by
      have := (validDomainLoop_zero hloop).1
      simpa using this
    rw [validDomain, if_neg (by omega)]
    exact hloop

/-! ### Local parts -/

/-- A local part as the policy admits it. -/
def IsLocal (l : Bytes) : Prop :=
  DotParts (Run isAtext) l ∨ ∃ b, QuotedText b ∧ (∀ c ∈ b, isControl c = false) ∧ l = quoted b

theorem atoms_of_needsQuotes {a l : Bytes} (ha : ∀ c ∈ a, isAtext c = true)
    (h : needsQuotes (!a.isEmpty) l = false) : DotParts (Run isAtext) (a ++ l) := by
  induction l generalizing a with
  | nil =>
    rw [List.append_nil]
    exact .one ⟨by rintro rfl; simp [needsQuotes] at h, ha⟩
  | cons c l ih =>
    simp only [needsQuotes] at h
    split at h
    · next hc =>
      subst hc
      simp only [Bool.or_eq_false_iff, Bool.not_not] at h
      have hrest : DotParts (Run isAtext) ([] ++ l) := ih (by simp) h.2
      exact .cons ⟨by rintro rfl; simp at h, ha⟩ hrest
    · simp only [Bool.or_eq_false_iff, Bool.not_eq_false'] at h
      have hrest : DotParts (Run isAtext) (a ++ [c] ++ l) := by
        refine ih ?_ (by cases a <;> simpa using h.2)
        intro d hd
        rcases List.mem_append.mp hd with hd | hd
        · exact ha d hd
        · rw [List.mem_singleton.mp hd]
          exact h.1
      simpa using hrest

theorem needsQuotes_run {component : Bool} {a t : Bytes} (h : Run isAtext a) :
    needsQuotes component (a ++ t) = needsQuotes true t := by
  obtain ⟨hne, hmem⟩ := h
  induction a generalizing component with
  | nil => exact absurd rfl hne
  | cons c a ih =>
    have hc := hmem c (by simp)
    have h46 := (isAtext_of_ne hc).2.1
    have hstep : needsQuotes component (c :: (a ++ t)) = needsQuotes true (a ++ t) := by
      simp [needsQuotes, h46, hc]
    rw [List.cons_append, hstep]
    by_cases ha : a = []
    · rw [ha, List.nil_append]
    · exact ih ha fun d hd => hmem d (List.mem_cons_of_mem _ hd)

theorem needsQuotes_iff {l : Bytes} : needsQuotes false l = false ↔ DotParts (Run isAtext) l := by
  constructor
  · intro h
    have hall : DotParts (Run isAtext) ([] ++ l) := atoms_of_needsQuotes (by simp) h
    exact hall
  · intro h
    refine DotParts.rec_left (motive := fun l => needsQuotes false l = false) ?_ ?_ h
    · intro a ha
      have hread : needsQuotes false (a ++ []) = needsQuotes true [] := needsQuotes_run ha
      rw [List.append_nil] at hread
      rw [hread]
      rfl
    · intro a s ha ih
      rw [needsQuotes_run ha]
      simp [needsQuotes, ih]

theorem scanQuoted_sound {escaped : Bool} {s rest : Bytes} (h : scanQuoted escaped s = some rest) :
    ∃ b, QuotedText (if escaped then 92 :: b else b) ∧ (∀ c ∈ b, isControl c = false) ∧
      s = b ++ 34 :: rest := by
  induction s generalizing escaped with
  | nil => simp [scanQuoted] at h
  | cons c s ih =>
    cases escaped with
    | true =>
      cases hc : isControl c with
      | true => simp [scanQuoted, hc] at h
      | false =>
        simp only [scanQuoted, hc, Bool.false_eq_true, if_false] at h
        obtain ⟨b, hb, htext, rfl⟩ := ih h
        exact ⟨c :: b, .pair hb, by simpa [hc] using htext, rfl⟩
    | false =>
      simp only [scanQuoted] at h
      split at h
      · next h34 =>
        simp only [Option.some.injEq] at h
        exact ⟨[], .nil, by simp, by rw [h34, h]; rfl⟩
      · next h34 =>
        split at h
        · next h92 =>
          obtain ⟨b, hb, htext, rfl⟩ := ih h
          refine ⟨c :: b, by rw [h92]; exact hb, ?_, rfl⟩
          rw [h92]
          simpa [show isControl 92 = false by decide] using htext
        · next h92 =>
          split at h
          · exact absurd h (by simp)
          · next hc =>
            obtain ⟨b, hb, htext, rfl⟩ := ih h
            have hc : isControl c = false := eq_false_of_ne_true hc
            exact ⟨c :: b, .plain ⟨h34, h92⟩ hb, by simpa [hc] using htext, rfl⟩

theorem scanQuoted_complete {b : Bytes} (hb : QuotedText b) (htext : ∀ c ∈ b, isControl c = false)
    (rest : Bytes) : scanQuoted false (b ++ 34 :: rest) = some rest := by
  induction hb with
  | nil => simp [scanQuoted]
  | @plain c b hc _ ih =>
    have hctl := htext c (by simp)
    rw [List.cons_append, scanQuoted, if_neg hc.1, if_neg hc.2, if_neg (by simp [hctl])]
    exact ih fun d hd => htext d (List.mem_cons_of_mem _ hd)
  | @pair c b _ ih =>
    have hctl := htext c (by simp)
    rw [List.cons_append, List.cons_append, scanQuoted, if_neg (by decide), if_pos rfl, scanQuoted,
      if_neg (by simp [hctl])]
    exact ih fun d hd => htext d (by simp [hd])

/-- A domain as the policy admits it. -/
structure IsDomain (d : Bytes) : Prop where
  size : d.length ≤ 253
  labels : DotParts IsLabel d

/-- The grammar of the policy's mailboxes. -/
theorem validMailbox_grammar {s : Bytes} :
    validMailbox s = true ↔ ∃ l d, s = l ++ 64 :: d ∧ IsLocal l ∧ IsDomain d := by
  have hdomain : ∀ {d : Bytes}, validDomain d = true ↔ IsDomain d := by
    intro d
    rw [validDomain_iff]
    exact ⟨fun h => ⟨h.1, h.2⟩, fun h => ⟨h.size, h.labels⟩⟩
  constructor
  · intro h
    cases s with
    | nil => simp [validMailbox] at h
    | cons c rest =>
      simp only [validMailbox] at h
      split at h
      · next h34 =>
        split at h
        · next d hd =>
          obtain ⟨b, hb, htext, rfl⟩ := scanQuoted_sound hd
          exact ⟨quoted b, d, by simp [quoted, h34], Or.inr ⟨b, hb, htext, rfl⟩, hdomain.mp h⟩
        · exact absurd h (by simp)
      · split at h
        · next d hd =>
          obtain ⟨l, heq, _, hn⟩ := scanAtoms_eq_some_iff.mp hd
          exact ⟨l, d, heq, Or.inl (needsQuotes_iff.mp hn), hdomain.mp h⟩
        · exact absurd h (by simp)
  · rintro ⟨l, d, rfl, hl | ⟨b, hb, htext, rfl⟩, hd⟩
    · have hn := needsQuotes_iff.mpr hl
      have hat : 64 ∉ l := fun hm => by
        rcases needsQuotes_false_bytes hn 64 hm with ha | ha
        · exact (isAtext_of_ne ha).1 rfl
        · exact absurd ha (by decide)
      have hscan : scanAtoms false (l ++ 64 :: d) = some d :=
        scanAtoms_eq_some_iff.mpr ⟨l, rfl, hat, hn⟩
      have hhead := head_of_atoms hn d
      cases l with
      | nil => exact absurd rfl (needsQuotes_false_ne_nil hn)
      | cons c l =>
        have h34 : c ≠ 34 := by simpa using hhead
        simp only [List.cons_append] at hscan ⊢
        simp only [validMailbox, h34, if_false, hscan, hdomain.mpr hd]
    · have hscan := scanQuoted_complete hb htext (64 :: d)
      have hsplit : quoted b ++ 64 :: d = 34 :: (b ++ 34 :: 64 :: d) := by simp [quoted]
      rw [hsplit]
      simp only [validMailbox, if_true, hscan, hdomain.mpr hd]

/-! ### What the header reader emits -/

/-- Parts without spacing are dotted runs of the grammar. -/
theorem DotParts.dotted {cls : Byte → Bool} {part : Bytes → Prop} (hpart : ∀ a, part a → Run cls a)
    {s : Bytes} (h : DotParts part s) : Dotted cls s s := by
  refine DotParts.rec_left (motive := fun s => Dotted cls s s) ?_ ?_ h
  · intro a ha
    simpa using Dotted.last (hpart a ha) .nil
  · intro a s ha ih
    simpa using Dotted.dot (hpart a ha) .nil .nil ih

theorem Dotted.parts {cls : Byte → Bool} {x m : Bytes} (h : Dotted cls x m) :
    DotParts (Run cls) m := by
  induction h with
  | last ha _ => exact .one ha
  | dot ha _ _ _ ih => exact .cons ha ih

/-- A mailbox of the policy is an addr-spec without spacing. -/
theorem addrSpec_of_validMailbox {s : Bytes} (h : validMailbox s = true) : AddrSpec s s := by
  obtain ⟨l, d, rfl, hl, hd⟩ := validMailbox_grammar.mp h
  have hlocal : LocalPart l l := by
    rcases hl with hl | ⟨b, hb, _, rfl⟩
    · exact .atoms (hl.dotted fun _ ha => ha)
    · simpa using LocalPart.quote hb .nil
  have hdom : Dotted isLdh d d := hd.labels.dotted fun _ ha => ⟨ha.ne_nil, ha.ldh⟩
  simpa using AddrSpec.mk .nil hlocal .nil hdom

/-- Why the policy refuses a mailbox that a header can yield: the domain is too
long, a label is too long or has a hyphen at an end, or a byte is a control. -/
def Violates (l : Bytes) (labels : List Bytes) : Prop :=
  253 < (dotJoin labels).length ∨
    (∃ a ∈ labels, 63 < a.length ∨ a.head? = some 45 ∨ a.getLast? = some 45) ∨
    ∃ c ∈ l, isControl c = true

theorem named_valid {m : Bytes} (h : Named m) :
    ∃ l labels, m = l ++ 64 :: dotJoin labels ∧ labels ≠ [] ∧ (∀ a ∈ labels, Run isLdh a) ∧
      (DotParts (Run isAtext) l ∨ ∃ b, QuotedText b ∧ l = quoted b) ∧
      (validMailbox m = true ∨ Violates l labels) := by
  obtain ⟨x, hx⟩ := h
  cases hx with
  | @mk p x l r y d _ hlocal _ hdom =>
    obtain ⟨labels, hne, hrun, rfl⟩ := hdom.parts
    have hshape : DotParts (Run isAtext) l ∨ ∃ b, QuotedText b ∧ l = quoted b := by
      cases hlocal with
      | atoms h => exact Or.inl h.parts
      | quote hb _ => exact Or.inr ⟨_, hb, rfl⟩
    refine ⟨l, labels, rfl, hne, hrun, hshape, ?_⟩
    by_cases hv : Violates l labels
    · exact Or.inr hv
    · left
      simp only [Violates, not_or, not_lt, not_exists, not_and] at hv
      obtain ⟨hsize, hlabels, htext⟩ := hv
      refine validMailbox_grammar.mpr ⟨l, dotJoin labels, rfl, ?_, hsize, labels, hne, ?_, rfl⟩
      · rcases hshape with h | ⟨b, hb, rfl⟩
        · exact Or.inl h
        · refine Or.inr ⟨b, hb, fun c hc => ?_, rfl⟩
          exact eq_false_of_ne_true (htext c (by simp [quoted, hc]))
      · intro a ha
        obtain ⟨hlen, hhead, hlast⟩ := hlabels a ha
        have hr := hrun a ha
        exact ⟨hr.ne_nil, hlen, hr.mem, hhead, hlast⟩

/-- The policy's reader has its grammar, the header reader yields each of its
mailboxes as it is, and yields no other but for a label, a length or a control. -/
theorem mailbox_readers_agree :
    (∀ s, 0 ∉ s → (validMailbox s = true ↔
        ∃ l d, s = l ++ 64 :: d ∧ IsLocal l ∧ IsDomain d)) ∧
      (∀ (capacity : ℕ) (emit : Emit) (s : Bytes), 0 ∉ s → validMailbox s = true →
        s.length < capacity → emit [] s = true →
        rfc822ParseMailboxes capacity emit s = ([s], .ok ())) ∧
      ∀ (capacity : ℕ) (emit : Emit) (input : Bytes),
        ∀ m ∈ (rfc822ParseMailboxes capacity emit input).1,
        ∃ l labels, m = l ++ 64 :: dotJoin labels ∧ labels ≠ [] ∧ (∀ a ∈ labels, Run isLdh a) ∧
          (DotParts (Run isAtext) l ∨ ∃ b, QuotedText b ∧ l = quoted b) ∧
          (validMailbox m = true ∨ Violates l labels) := by
  refine ⟨fun s _ => validMailbox_grammar, ?_, ?_⟩
  · intro capacity emit s hnul hs hroom hemit
    have hspec := addrSpec_of_validMailbox hs
    have hitem : boundedItem capacity emit [] (s ++ []) = ([] ++ [s], .ok []) :=
      boundedItem_mailbox (.spec hspec) (Or.inl rfl) hroom hemit
    rw [List.append_nil] at hitem
    rw [rfc822ParseMailboxes_loop hnul hroom hspec.starts]
    fun_cases mailboxesLoop capacity emit [] s <;> simp_all
  · intro capacity emit input m hm
    have hnamed := (rfc822ParseMailboxes_sane capacity emit input).named m hm
    exact named_valid (hnamed.resolve_left (by simp))

/-- A mailbox of the policy as a header yields it. -/
theorem mailbox_readers_agree_sample :
    rfc822ParseMailboxes 16 emitAll (cstr "a@b.c") = ([cstr "a@b.c"], .ok ()) :=
  mailbox_readers_agree.2.1 16 emitAll (cstr "a@b.c") (by decide) (by decide)
    (by decide) rfl

end Rfc822

end JaroFilter
