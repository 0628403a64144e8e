import JaroFilter.Header.Reader

/-!
# The reference unfolder

The header of a message is its shortest prefix that ends in an empty line. It
is cut into physical lines, a line that starts with a blank continues the line
before it, and each field that results adds to the message. The reader returns
what this says, whatever follows the header and however the bytes arrive.
-/

namespace JaroFilter

open Lib Rfc822

namespace Unfold

/-! ### The header part of a message -/

/-- The text ends in an empty LF or CRLF line. -/
def EndsEmpty (h : Bytes) : Prop := h = [10] ∨ h = [13, 10] ∨ [10, 10] <:+ h ∨ [10, 13, 10] <:+ h

/-- The shortest prefix of the message that ends in an empty line. -/
structure HeaderPart (m h : Bytes) : Prop where
  isPrefix : h <+: m
  endsEmpty : EndsEmpty h
  least : ∀ h', h' <+: m → EndsEmpty h' → h.length ≤ h'.length

theorem HeaderPart.unique {m h h' : Bytes} (hp : HeaderPart m h) (hp' : HeaderPart m h') : h = h' :=
  List.IsPrefix.eq_of_length_le
    (List.prefix_of_prefix_length_le hp.isPrefix hp'.isPrefix (hp.least _ hp'.isPrefix hp'.endsEmpty))
    (hp'.least _ hp.isPrefix hp.endsEmpty)

/-- The physical lines of a header, without their endings and without the empty one. -/
def physicalLines (h : Bytes) : List Bytes := ((h.splitOn 10).map chopCr).takeWhile (· ≠ [])

/-- A header as its lines: what each holds before the line feed, and the text of each. -/
inductive Block : Bytes → List Bytes → Prop
  | empty {raw : Bytes} : 10 ∉ raw → chopCr raw = [] → Block (raw ++ [10]) []
  | line {raw h : Bytes} {ls : List Bytes} :
      10 ∉ raw → chopCr raw ≠ [] → Block h ls → Block (raw ++ 10 :: h) (chopCr raw :: ls)

theorem Block.lines {h : Bytes} {ls : List Bytes} (hb : Block h ls) : physicalLines h = ls := by
  induction hb with
  | @empty raw hraw hchop =>
    rw [physicalLines, List.splitOn_append_cons_self_of_not_mem hraw]
    simp [hchop]
  | @line raw h ls hraw hchop _ ih =>
    rw [physicalLines, List.splitOn_append_cons_self_of_not_mem hraw, List.map_cons,
      List.takeWhile_cons_of_pos (by simpa using hchop), ← ih]
    rfl

theorem chopCr_eq_nil {raw : Bytes} (h : chopCr raw = []) : raw = [] ∨ raw = [13] := by
  unfold chopCr at h
  split at h
  · next hlast =>
    obtain ⟨init, rfl⟩ := List.getLast?_eq_some_iff.mp hlast
    simp_all
  · exact Or.inl h

theorem EndsEmpty.cons {raw h : Bytes} (hne : h ≠ []) (hend : EndsEmpty (raw ++ 10 :: h)) :
    EndsEmpty h := by
  have hsuffix : ∀ s : Bytes, s <:+ raw ++ 10 :: h → s = 10 :: h ∨ s <:+ h ∨ 10 :: h <:+ s := by
    intro s hs
    rcases List.suffix_or_suffix_of_suffix hs (List.suffix_append raw (10 :: h)) with hs | hs
    · rcases List.suffix_cons_iff.mp hs with hs | hs
      · exact Or.inl hs
      · exact Or.inr (Or.inl hs)
    · exact Or.inr (Or.inr hs)
  rcases hend with heq | heq | hs | hs
  · cases raw <;> simp_all
  · cases raw with
    | nil => simp at heq
    | cons c raw => cases raw <;> simp_all
  · rcases hsuffix _ hs with heq | hs | hs
    · simp only [List.cons.injEq, true_and] at heq
      exact Or.inl heq.symm
    · exact Or.inr (Or.inr (Or.inl hs))
    · simp [List.suffix_cons_iff, hne] at hs
      exact Or.inl hs
  · rcases hsuffix _ hs with heq | hs | hs
    · simp only [List.cons.injEq, true_and] at heq
      exact Or.inr (Or.inl heq.symm)
    · exact Or.inr (Or.inr (Or.inr hs))
    · simp [List.suffix_cons_iff, hne] at hs
      exact Or.inr (Or.inl hs)

theorem EndsEmpty.append {h : Bytes} (hend : EndsEmpty h) (raw : Bytes) :
    EndsEmpty (raw ++ 10 :: h) := by
  rcases hend with rfl | rfl | hs | hs
  · exact Or.inr (Or.inr (Or.inl ⟨raw, by simp⟩))
  · exact Or.inr (Or.inr (Or.inr ⟨raw, by simp⟩))
  · exact Or.inr (Or.inr (Or.inl ((hs.trans (List.suffix_cons _ _)).trans (List.suffix_append _ _))))
  · exact Or.inr (Or.inr (Or.inr ((hs.trans (List.suffix_cons _ _)).trans (List.suffix_append _ _))))

theorem Block.endsEmpty {h : Bytes} {ls : List Bytes} (hb : Block h ls) : EndsEmpty h := by
  induction hb with
  | @empty raw _ hchop =>
    rcases chopCr_eq_nil hchop with rfl | rfl
    · exact Or.inl rfl
    · exact Or.inr (Or.inl rfl)
  | @line raw _ _ _ _ _ ih => exact ih.append raw

theorem EndsEmpty.mem {h : Bytes} (hend : EndsEmpty h) : 10 ∈ h := by
  rcases hend with rfl | rfl | hs | hs
  · simp
  · simp
  · exact hs.mem (by simp)
  · exact hs.mem (by simp)

theorem EndsEmpty.ne_nil {raw h : Bytes} (h10 : 10 ∉ raw) (hchop : chopCr raw ≠ [])
    (hend : EndsEmpty (raw ++ 10 :: h)) : h ≠ [] := by
  rintro rfl
  rcases hend with heq | heq | ⟨t, ht⟩ | ⟨t, ht⟩
  · obtain rfl : raw = [] := by simpa using heq
    exact hchop rfl
  · obtain rfl : raw = [13] := (List.append_left_inj [10]).mp heq
    exact hchop rfl
  · obtain rfl : t ++ [10] = raw := (List.append_left_inj [10]).mp (by simpa using ht)
    simp at h10
  · obtain rfl : t ++ [10, 13] = raw := (List.append_left_inj [10]).mp (by simpa using ht)
    simp at h10

/-- Before the first line feed there is no empty line. -/
theorem EndsEmpty.first {raw h t : Bytes} (h10 : 10 ∉ raw) (hp : h <+: raw ++ 10 :: t)
    (hend : EndsEmpty h) : ∃ h', h = raw ++ 10 :: h' ∧ h' <+: t := by
  have hmem := hend.mem
  rcases List.prefix_or_prefix_of_prefix hp (List.prefix_append raw (10 :: t)) with hle | ⟨u, rfl⟩
  · exact absurd (hle.mem hmem) h10
  · rw [List.prefix_append_right_inj] at hp
    cases u with
    | nil => exact absurd (by simpa using hmem) h10
    | cons c u =>
      obtain ⟨rfl, hu⟩ := List.cons_prefix_cons.mp hp
      exact ⟨u, rfl, hu⟩

/-- No shorter prefix ends in an empty line. -/
theorem Block.least {h : Bytes} {ls : List Bytes} (hb : Block h ls) {rest h' : Bytes}
    (hp : h' <+: h ++ rest) (hend : EndsEmpty h') : h.length ≤ h'.length := by
  induction hb generalizing h' with
  | @empty raw hraw _ =>
    rw [List.append_assoc] at hp
    obtain ⟨h1, rfl, _⟩ := hend.first hraw hp
    simp
  | @line raw h ls hraw hchop _ ih =>
    rw [List.append_assoc] at hp
    obtain ⟨h1, rfl, hp1⟩ := hend.first hraw hp
    have := ih hp1 (hend.cons (hend.ne_nil hraw hchop))
    simp only [List.length_append, List.length_cons]
    omega

theorem Block.headerPart {h : Bytes} {ls : List Bytes} (hb : Block h ls) (rest : Bytes) :
    HeaderPart (h ++ rest) h :=
  ⟨List.prefix_append _ _, hb.endsEmpty, fun _ hp hend => hb.least hp hend⟩

/-- A message starts with a header, or none of its prefixes ends in an empty line. -/
theorem block_or (m : Bytes) :
    (∃ h ls rest, m = h ++ rest ∧ Block h ls) ∨ ∀ h, h <+: m → ¬EndsEmpty h := by
  induction hn : m.length using Nat.strong_induction_on generalizing m with
  | _ n ih =>
    by_cases h10 : 10 ∈ m
    · obtain ⟨raw, t, rfl, hraw⟩ := List.eq_append_cons_of_mem h10
      by_cases hchop : chopCr raw = []
      · exact Or.inl ⟨raw ++ [10], [], t, by simp, .empty hraw hchop⟩
      · have hlt : t.length < n := by
          rw [← hn]
          simp
          omega
        rcases ih t.length hlt t rfl with ⟨h, ls, rest, rfl, hb⟩ | hnone
        · exact Or.inl ⟨raw ++ 10 :: h, _, rest, by simp, .line hraw hchop hb⟩
        · refine Or.inr fun h hp hend => ?_
          obtain ⟨h1, rfl, hp1⟩ := hend.first hraw hp
          exact hnone h1 hp1 (hend.cons (hend.ne_nil hraw hchop))
    · exact Or.inr fun h hp hend => h10 (hp.mem hend.mem)

theorem headerPart_block {m h : Bytes} (hp : HeaderPart m h) :
    ∃ rest, m = h ++ rest ∧ Block h (physicalLines h) := by
  rcases block_or m with ⟨h', ls, rest, rfl, hb⟩ | hnone
  · obtain rfl := hp.unique (hb.headerPart rest)
    exact ⟨rest, rfl, hb.lines ▸ hb⟩
  · exact absurd hp.endsEmpty (hnone h hp.isPrefix)

/-! ### The bytes of one line -/

/-- What a physical line may hold. -/
structure LineText (l : Bytes) : Prop where
  length : l.length ≤ lineMax
  text : ∀ c ∈ l, c = 9 ∨ isControl c = false

/-- What the line buffer holds before the line feed: a carriage return only at its end. -/
structure Pending (q : Bytes) : Prop where
  length : q.length ≤ lineMax + 1
  text : ∀ c ∈ chopCr q, c = 9 ∨ isControl c = false

theorem chopCr_snoc (q : Bytes) (c : Byte) :
    chopCr (q ++ [c]) = if c = 13 then q else q ++ [c] := by
  simp [chopCr]

theorem chopCr_of_getLast {q : Bytes} (h : q.getLast? ≠ some 13) : chopCr q = q := if_neg h

theorem mem_of_chopCr {q : Bytes} {c : Byte} (h : c ∈ chopCr q) : c ∈ q := by
  unfold chopCr at h
  split at h
  · exact List.mem_of_mem_dropLast h
  · exact h

theorem isText_iff (c : Byte) :
    (c = 9 ∨ isControl c = false) ↔ ¬((c < 32 ∧ c ≠ 9) ∨ c = 127) := by
  simp only [isControl, Bool.or_eq_false_iff, decide_eq_false_iff_not, beq_eq_false_iff_ne]
  by_cases h9 : c = 9
  · subst h9
    decide
  · simp [h9]

theorem not_text_cr : ¬((13 : Byte) = 9 ∨ isControl 13 = false) := by decide

theorem pending_nil : Pending [] := ⟨by simp, by simp [chopCr]⟩

/-- One more byte, as the reader decides it. -/
theorem pending_snoc {q : Bytes} {c : Byte} (hq : Pending q) :
    Pending (q ++ [c]) ↔
      ¬((c < 32 ∧ c ≠ 9 ∧ c ≠ 13) ∨ c = 127 ∨ q.getLast? = some 13) ∧ q.length ≠ lineMax + 1 := by
  have hlen := hq.length
  constructor
  · rintro ⟨hl, ht⟩
    simp only [List.length_append, List.length_singleton] at hl
    rw [chopCr_snoc] at ht
    have hlast : q.getLast? ≠ some 13 := by
      intro h
      have hmem : (13 : Byte) ∈ q := List.mem_of_getLast? h
      refine not_text_cr (ht 13 ?_)
      split
      · exact hmem
      · exact List.mem_append_left _ hmem
    refine ⟨?_, by omega⟩
    by_cases h13 : c = 13
    · subst h13
      simp [hlast]
    · rw [if_neg h13] at ht
      have := (isText_iff c).mp (ht c (by simp))
      tauto
  · rintro ⟨hc, hne⟩
    push Not at hc
    obtain ⟨hlow, h127, hlast⟩ := hc
    refine ⟨by simp; omega, ?_⟩
    rw [chopCr_snoc]
    have htext := hq.text
    rw [chopCr_of_getLast hlast] at htext
    split
    · exact htext
    · next h13 =>
      intro d hd
      rcases List.mem_append.mp hd with hd | hd
      · exact htext d hd
      · obtain rfl := List.mem_singleton.mp hd
        rw [isText_iff]
        tauto

theorem Pending.of_append {q s : Bytes} (h : Pending (q ++ s)) : Pending q := by
  refine ⟨?_, fun c hc => ?_⟩
  · have := h.length
    simp only [List.length_append] at this
    omega
  · rcases List.eq_nil_or_concat s with rfl | ⟨s, d, rfl⟩
    · exact h.text c (by simpa using hc)
    · refine h.text c ?_
      rw [List.concat_eq_append, ← List.append_assoc, chopCr_snoc]
      have := mem_of_chopCr hc
      split <;> simp [this]

/-- A whole line, as the reference decides it. -/
theorem pending_line (raw : Bytes) :
    Pending raw ∧ (chopCr raw).length ≤ lineMax ↔ LineText (chopCr raw) := by
  constructor
  · exact fun h => ⟨h.2, h.1.text⟩
  · refine fun h => ⟨⟨?_, h.text⟩, h.length⟩
    have hlen := h.length
    unfold chopCr at hlen
    split at hlen
    · simp only [List.length_dropLast] at hlen
      omega
    · omega

/-- The state after bytes of a line. -/
def taking (l : Scan) (s : Bytes) : Scan :=
  ⟨l.parser, l.physical ++ s, l.wireSize + s.length, sha256Update l.hash s⟩

/-- The bytes of a line are taken when they fit and may stand there. -/
theorem feed_raw {l : Scan} {raw : Bytes} (h10 : 10 ∉ raw) (hq : Pending l.physical)
    (hsize : l.wireSize ≤ headersMax) (hready : l.hash.Ready) (r : Progress) :
    feed l raw = .ok r ↔ l.wireSize + raw.length ≤ headersMax ∧ Pending (l.physical ++ raw) ∧
      r = .more (taking l raw) := by
  induction raw generalizing l with
  | nil =>
    have hnil : taking l [] = l := by simp [taking, sha256Update_nil hready]
    simp [feed, hnil, hq, hsize, eq_comm]
  | cons c raw ih =>
    simp only [List.mem_cons, not_or] at h10
    have hc : c ≠ 10 := fun h => h10.1 h.symm
    have hstep := pending_snoc (c := c) hq
    rw [feed, headerByte]
    by_cases hmax : headersMax < l.wireSize + 1
    · simp [hmax]
      omega
    · rw [if_neg hmax, if_neg hc]
      by_cases hp : Pending (l.physical ++ [c])
      · rw [if_neg (hstep.mp hp).1, if_neg (hstep.mp hp).2]
        dsimp only
        rw [ih h10.2 hp (Nat.le_of_not_lt hmax) (sha256Update_ready _ _ hready)]
        simp only [taking, List.append_assoc, List.singleton_append, List.length_cons,
          ← sha256Update_append _ _ _ hready]
        rw [show l.wireSize + 1 + raw.length = l.wireSize + (raw.length + 1) by omega]
      · have hno : ¬Pending (l.physical ++ c :: raw) := by
          rw [← List.singleton_append, ← List.append_assoc]
          exact fun h => hp h.of_append
        simp only [hno, false_and, and_false, iff_false]
        rw [hstep, not_and_or, not_not] at hp
        rcases hp with hp | hp
        · rw [if_pos hp]
          simp
        · by_cases hbad : (c < 32 ∧ c ≠ 9 ∧ c ≠ 13) ∨ c = 127 ∨ l.physical.getLast? = some 13
          · rw [if_pos hbad]
            simp
          · rw [if_neg hbad, if_pos (not_not.mp hp)]
            simp

/-- What follows a line whose text was accepted. -/
def lineEnd (l : Scan) (raw : Bytes) : Except Failure Progress :=
  if chopCr raw = [] then
    (finishField l.parser).map fun m =>
      .done ⟨m, l.wireSize + (raw.length + 1), sha256Hex (sha256Update l.hash (raw ++ [10]))⟩
  else
    (headerLine l.parser (chopCr raw)).map fun p =>
      .more ⟨p, [], l.wireSize + (raw.length + 1), sha256Update l.hash (raw ++ [10])⟩

/-- A state between two lines. -/
structure Between (l : Scan) : Prop where
  physical : l.physical = []
  size : l.wireSize ≤ headersMax
  ready : l.hash.Ready

theorem feed_one (l : Scan) (c : Byte) : feed l [c] = headerByte l c := by
  rw [feed]
  split
  · next h => rw [h, feed]
  · rfl

theorem feed_line {l : Scan} {raw : Bytes} (h10 : 10 ∉ raw) (hl : Between l) (r : Progress) :
    feed l (raw ++ [10]) = .ok r ↔
      l.wireSize + (raw.length + 1) ≤ headersMax ∧ LineText (chopCr raw) ∧ lineEnd l raw = .ok r := by
  have hraw := feed_raw h10 (hl.physical ▸ pending_nil) hl.size hl.ready
  have hready := sha256Update_ready _ raw hl.ready
  rw [hl.physical, List.nil_append] at hraw
  rw [feed_append]
  by_cases hp : l.wireSize + raw.length ≤ headersMax ∧ Pending raw
  · rw [(hraw _).mpr ⟨hp.1, hp.2, rfl⟩]
    simp only [feed_one, headerByte, taking, hl.physical, List.nil_append, if_true,
      ← sha256Update_append _ _ _ hl.ready, Nat.add_assoc]
    by_cases hmax : l.wireSize + (raw.length + 1) ≤ headersMax
    · rw [if_neg (by omega)]
      by_cases hlen : (chopCr raw).length ≤ lineMax
      · rw [if_neg (by omega)]
        have htext : LineText (chopCr raw) := (pending_line raw).mp ⟨hp.2, hlen⟩
        simp only [hmax, htext, true_and, lineEnd]
      · rw [if_pos (by omega)]
        have hno : ¬LineText (chopCr raw) := fun h => hlen h.length
        simp [hno]
    · rw [if_pos (by omega)]
      simp [hmax]
  · have hne : ∀ r, feed l raw ≠ .ok r := fun r h => hp ⟨((hraw r).mp h).1, ((hraw r).mp h).2.1⟩
    have hno : ¬(l.wireSize + (raw.length + 1) ≤ headersMax ∧ LineText (chopCr raw)) := by
      rintro ⟨hmax, htext⟩
      exact hp ⟨by omega, ((pending_line raw).mpr htext).1⟩
    cases hf : feed l raw with
    | ok r => exact absurd hf (hne r)
    | error f =>
      simp only [reduceCtorEq, false_iff]
      exact fun h => hno ⟨h.1, h.2.1⟩

theorem lineEnd_more {l l' : Scan} {raw : Bytes} (hl : Between l)
    (hsize : l.wireSize + (raw.length + 1) ≤ headersMax) (h : lineEnd l raw = .ok (.more l')) :
    Between l' := by
  unfold lineEnd at h
  split at h
  · obtain ⟨m, _, hm⟩ := map_eq_ok_iff.mp h
    cases hm
  · obtain ⟨p, _, hm⟩ := map_eq_ok_iff.mp h
    cases hm
    exact ⟨rfl, hsize, sha256Update_ready _ _ hl.ready⟩

/-! ### The lines of a header -/

/-- The lines of a header through `line`, and the end of the last field. -/
def headerLines : HeaderParser → List Bytes → Except Failure Message
  | p, [] => finishField p
  | p, s :: ls => do
    let p ← headerLine p s
    headerLines p ls

/-- On a header the loop is `line` on each physical line, under the limits. -/
theorem feed_block {l : Scan} {h : Bytes} {ls : List Bytes} (hb : Block h ls) (hl : Between l)
    (r : Progress) :
    feed l h = .ok r ↔ l.wireSize + h.length ≤ headersMax ∧ (∀ x ∈ ls, LineText x) ∧
      ∃ m, headerLines l.parser ls = .ok m ∧
        r = .done ⟨m, l.wireSize + h.length, sha256Hex (sha256Update l.hash h)⟩ := by
  induction hb generalizing l with
  | @empty raw hraw hchop =>
    rw [feed_line hraw hl, hchop, lineEnd, if_pos hchop, map_eq_ok_iff]
    have htext : LineText [] := ⟨by simp, by simp⟩
    simp [htext, headerLines, eq_comm]
  | @line raw h ls hraw hchop _ ih =>
    rw [← List.singleton_append, ← List.append_assoc, feed_append]
    constructor
    · intro hf
      cases hx : feed l (raw ++ [10]) with
      | error f => simp [hx] at hf
      | ok x =>
        obtain ⟨hsize, htext, hend⟩ := (feed_line hraw hl x).mp hx
        have hend' := hend
        rw [lineEnd, if_neg hchop] at hend'
        obtain ⟨p, hp, rfl⟩ := map_eq_ok_iff.mp hend'
        simp only [hx] at hf
        obtain ⟨hle, hall, m, hm, rfl⟩ := (ih (lineEnd_more hl hsize hend)).mp hf
        dsimp only at hle
        refine ⟨by simp; omega, by simpa using ⟨htext, hall⟩, m, ?_, ?_⟩
        · exact bind_eq_ok_iff.mpr ⟨p, hp, hm⟩
        · simp only [List.length_append, List.length_singleton, Progress.done.injEq,
            MessageHeaders.mk.injEq, true_and, ← sha256Update_append _ _ _ hl.ready]
          exact ⟨by omega, trivial⟩
    · rintro ⟨hsize, htext, m, hm, rfl⟩
      simp only [List.length_append, List.length_singleton] at hsize
      obtain ⟨p, hp, hm⟩ := bind_eq_ok_iff.mp hm
      have hend : lineEnd l raw = .ok (.more ⟨p, [], l.wireSize + (raw.length + 1),
          sha256Update l.hash (raw ++ [10])⟩) := by
        rw [lineEnd, if_neg hchop, hp]
        rfl
      have hx := (feed_line hraw hl _).mpr ⟨by omega, htext _ (by simp), hend⟩
      rw [hx]
      dsimp only
      refine (ih (lineEnd_more hl (by omega) hend)).mpr
        ⟨by dsimp only; omega, fun x hx => htext x (by simp [hx]), m, hm, ?_⟩
      simp only [List.length_append, List.length_singleton, Progress.done.injEq,
        MessageHeaders.mk.injEq, true_and, ← sha256Update_append _ _ _ hl.ready]
      exact ⟨by omega, trivial⟩

/-- Without an empty line the loop never ends well. -/
theorem feed_unfinished {l : Scan} {m : Bytes} (hl : Between l)
    (hnone : ∀ h, h <+: m → ¬EndsEmpty h) (r : MessageHeaders) : feed l m ≠ .ok (.done r) := by
  induction hn : m.length using Nat.strong_induction_on generalizing m l with
  | _ n ih =>
    intro hf
    by_cases h10 : 10 ∈ m
    · obtain ⟨raw, t, rfl, hraw⟩ := List.eq_append_cons_of_mem h10
      have hchop : chopCr raw ≠ [] := fun h =>
        hnone (raw ++ [10]) (by simp) (Block.empty hraw h).endsEmpty
      rw [← List.singleton_append, ← List.append_assoc, feed_append] at hf
      cases hx : feed l (raw ++ [10]) with
      | error f => simp [hx] at hf
      | ok x =>
        obtain ⟨hsize, htext, hend⟩ := (feed_line hraw hl x).mp hx
        have hend' := hend
        rw [lineEnd, if_neg hchop] at hend'
        obtain ⟨p, hp, rfl⟩ := map_eq_ok_iff.mp hend'
        simp only [hx] at hf
        refine ih t.length (by rw [← hn]; simp; omega) (lineEnd_more hl hsize hend)
          (fun h hp hend => ?_) rfl hf
        exact hnone (raw ++ 10 :: h) (by simpa using hp) (hend.append raw)
    · have := (feed_raw h10 (hl.physical ▸ pending_nil) hl.size hl.ready _).mp hf
      simp at this

/-! ### Fields -/

/-- The fields of a header: each line joined with the lines that continue it. -/
def unfoldLines : List Bytes → List Bytes
  | [] => []
  | l :: ls => (l ++ (ls.takeWhile isFolded).flatten) :: unfoldLines (ls.dropWhile isFolded)
termination_by ls => ls.length
decreasing_by
  have := (List.dropWhile_suffix isFolded (l := ls)).length_le
  simp only [List.length_cons]
  omega

/-- A field is a name of printable bytes, a colon and a bounded value. -/
structure FieldText (t name value : Bytes) : Prop where
  eq : t = name ++ 58 :: value
  name_ne_nil : name ≠ []
  name_bytes : ∀ c ∈ name, 33 ≤ c ∧ c ≤ 126 ∧ c ≠ 58
  length : value.length ≤ lineMax

/-- The mailboxes of an address list, each in its normal form. -/
structure Addresses (value : Bytes) (as : List Bytes) : Prop where
  utf8 : validUtf8 value = true
  list : ∃ ms, AddressList value ms ∧
    List.Forall₂ (fun m a => validUtf8 m = true ∧ normalizeMailbox m = some a) ms as

/-- What one field adds to a message. -/
inductive Adds : ℕ → Bytes → Message → Prop
  | other {value : Bytes} : Adds 0 value ⟨[], [], []⟩
  | spam {value : Bytes} : Adds fieldSpam value ⟨[], [], [value]⟩
  | sender {value : Bytes} {as : List Bytes} : Addresses value as →
      Adds fieldSender value ⟨as.map (⟨fieldSender, ·⟩), [value], []⟩
  | address {field : ℕ} {value : Bytes} {as : List Bytes} :
      field = fieldFrom ∨ field = fieldTo ∨ field = fieldCc → Addresses value as →
      Adds field value ⟨as.map (⟨field, ·⟩), [], []⟩

/-- Two messages in field order. -/
def join (m n : Message) : Message :=
  ⟨m.addresses ++ n.addresses, m.senders ++ n.senders, m.spamFlags ++ n.spamFlags⟩

/-- The message that the fields of a header make. -/
inductive Collects : List Bytes → Message → Prop
  | nil : Collects [] ⟨[], [], []⟩
  | cons {t name value : Bytes} {ts : List Bytes} {m n : Message} : FieldText t name value →
      Adds (fieldOf name) value m → Collects ts n → Collects (t :: ts) (join m n)

/-- What the reader returns for a message. -/
def Reference (m : Bytes) (r : MessageHeaders) : Prop :=
  ∃ h, HeaderPart m h ∧ h.length ≤ headersMax ∧ (∀ l ∈ physicalLines h, LineText l) ∧
    Collects (unfoldLines (physicalLines h)) r.message ∧ r.wireSize = h.length ∧
    r.wireDigest = SecureHash.hexText (SecureHash.sha256 h)

@[simp] theorem join_empty (m : Message) : join m ⟨[], [], []⟩ = m := by simp [join]

theorem join_assoc (m n k : Message) : join (join m n) k = join m (join n k) := by
  simp [join, List.append_assoc]

/-! ### The end of a field -/

theorem emitAddress_iff {sent : List Bytes} {m : Bytes} :
    emitAddress sent m = true ↔ validUtf8 m = true ∧ (normalizeMailbox m).isSome = true := by
  simp only [emitAddress, Bool.and_eq_true]
  constructor
  · exact fun h => ⟨h.1.1, h.2⟩
  · rintro ⟨hu, hn⟩
    refine ⟨⟨hu, ?_⟩, hn⟩
    by_contra hv
    rw [normalizeMailbox, if_pos (Or.inr (by simpa using hv))] at hn
    cases hn

/-- The parser with the emitter of the reader returns the mailboxes of a list
whose mailboxes are all taken. -/
theorem rfc822_emitAddress {value : Bytes} (h0 : 0 ∉ value) (hlen : value.length ≤ lineMax)
    (ms : List Bytes) :
    rfc822ParseMailboxes (lineMax + 1) emitAddress value = (ms, .ok ()) ↔
      AddressList value ms ∧ ∀ m ∈ ms, validUtf8 m = true ∧ (normalizeMailbox m).isSome = true := by
  have hroom : value.length < lineMax + 1 := by omega
  constructor
  · intro h
    refine ⟨rfc822ParseMailboxes_sound hroom h, fun m hm => ?_⟩
    have hsane := rfc822ParseMailboxes_sane (lineMax + 1) emitAddress value
    rw [h] at hsane
    rcases hsane.taken () rfl m hm with hm | ⟨before, hb⟩
    · simp at hm
    · exact emitAddress_iff.mp hb
  · rintro ⟨hlist, hall⟩
    rw [rfc822ParseMailboxes_loop h0 hroom hlist.starts]
    exact mailboxesLoop_complete hlist (fun m hm sent => emitAddress_iff.mpr (hall m hm)) hroom

theorem addresses_iff {value : Bytes} (h0 : 0 ∉ value) (hlen : value.length ≤ lineMax)
    (as : List Bytes) :
    Addresses value as ↔ validUtf8 value = true ∧ ∃ ms,
      rfc822ParseMailboxes (lineMax + 1) emitAddress value = (ms, .ok ()) ∧
        as = ms.map fun m => (normalizeMailbox m).getD m := by
  have hnormal : ∀ ms : List Bytes, (∀ m ∈ ms, (normalizeMailbox m).isSome = true) →
      ∀ as, List.Forall₂ (fun m a => normalizeMailbox m = some a) ms as ↔
        as = ms.map fun m => (normalizeMailbox m).getD m := by
    intro ms hms as
    induction ms generalizing as with
    | nil => simp
    | cons m ms ih =>
      obtain ⟨a, ha⟩ := Option.isSome_iff_exists.mp (hms m (by simp))
      have ih := ih fun x hx => hms x (by simp [hx])
      rw [List.forall₂_cons_left_iff]
      simp only [ha, Option.some.injEq, List.map_cons, Option.getD_some]
      constructor
      · rintro ⟨b, bs, rfl, hbs, rfl⟩
        rw [(ih bs).mp hbs]
      · rintro rfl
        exact ⟨a, _, rfl, (ih _).mpr rfl, rfl⟩
  constructor
  · rintro ⟨hu, ms, hlist, hall⟩
    have hall' : ∀ m ∈ ms, validUtf8 m = true ∧ (normalizeMailbox m).isSome = true := by
      intro m hm
      obtain ⟨i, hi, rfl⟩ := List.getElem_of_mem hm
      obtain ⟨hu, hn⟩ := hall.get hi (hall.length_eq ▸ hi)
      exact ⟨hu, by simpa using Option.isSome_iff_exists.mpr ⟨_, hn⟩⟩
    refine ⟨hu, ms, (rfc822_emitAddress h0 hlen ms).mpr ⟨hlist, hall'⟩, ?_⟩
    exact (hnormal ms (fun m hm => (hall' m hm).2) as).mp (hall.imp fun _ _ h => h.2)
  · rintro ⟨hu, ms, hparse, rfl⟩
    obtain ⟨hlist, hall⟩ := (rfc822_emitAddress h0 hlen ms).mp hparse
    refine ⟨hu, ms, hlist, ?_⟩
    rw [List.forall₂_map_right_iff]
    refine List.forall₂_same.mpr fun m hm => ⟨(hall m hm).1, ?_⟩
    obtain ⟨a, ha⟩ := Option.isSome_iff_exists.mp (hall m hm).2
    simp [ha]

/-- The fields a name can select. -/
theorem fieldOf_cases (name : Bytes) :
    fieldOf name = 0 ∨ fieldOf name = fieldSpam ∨ fieldOf name = fieldSender ∨
      fieldOf name = fieldFrom ∨ fieldOf name = fieldTo ∨ fieldOf name = fieldCc := by
  unfold fieldOf
  split_ifs <;> simp

theorem finishField_idle {p : HeaderParser} (h : p.active = false) : finishField p = .ok p.message :=
  if_pos (Or.inl h)

theorem finishField_addresses {p : HeaderParser} (hactive : p.active = true) (hfield : p.field ≠ 0)
    (hspam : p.field ≠ fieldSpam) (h0 : 0 ∉ p.value) (hlen : p.value.length ≤ lineMax)
    (m : Message) :
    finishField p = .ok m ↔ ∃ as, Addresses p.value as ∧
      m = join p.message
        ⟨as.map (⟨p.field, ·⟩), if p.field = fieldSender then [p.value] else [], []⟩ := by
  simp only [addresses_iff h0 hlen]
  rw [finishField, if_neg (by simp [hactive, hfield]), if_neg hspam]
  by_cases hu : validUtf8 p.value = true
  · rw [if_neg (by simp [hu])]
    cases hparse : rfc822ParseMailboxes (lineMax + 1) emitAddress p.value with
    | mk sent r =>
      cases r with
      | error r =>
        constructor
        · intro h
          split at h <;> simp_all
        · rintro ⟨as, ⟨_, ms, hms, _⟩, _⟩
          simp at hms
      | ok u =>
        have hentry : (fun a => (⟨p.field, a⟩ : Mailbox)) ∘ (fun m => (normalizeMailbox m).getD m) =
            storeAddress p.field := rfl
        simp only [Except.ok.injEq, Prod.mk.injEq, and_true]
        constructor
        · rintro rfl
          refine ⟨_, ⟨hu, sent, rfl, rfl⟩, ?_⟩
          rw [List.map_map, hentry]
          split <;> simp [join, storeValue]
        · rintro ⟨_, ⟨_, ms, rfl, rfl⟩, rfl⟩
          rw [List.map_map, hentry]
          split <;> simp [join, storeValue]
  · have hu' : validUtf8 p.value = false := by simpa using hu
    rw [if_pos hu']
    simp [hu']

theorem Adds.addresses {field : ℕ} {value : Bytes} {n : Message} (h : Adds field value n)
    (h0 : field ≠ 0) (hspam : field ≠ fieldSpam) (hsender : field ≠ fieldSender) :
    ∃ as, Addresses value as ∧ n = ⟨as.map (⟨field, ·⟩), [], []⟩ := by
  cases h with
  | other => exact absurd rfl h0
  | spam => exact absurd rfl hspam
  | sender => exact absurd rfl hsender
  | @address _ _ as _ has => exact ⟨as, has, rfl⟩

/-- The end of an active field adds what its value says. -/
theorem finishField_iff {p : HeaderParser} {name value : Bytes} (hactive : p.active = true)
    (hfield : p.field = fieldOf name) (hvalue : p.field ≠ 0 → p.value = value) (h0 : 0 ∉ value)
    (hlen : value.length ≤ lineMax) (m : Message) :
    finishField p = .ok m ↔ ∃ n, Adds (fieldOf name) value n ∧ m = join p.message n := by
  rcases fieldOf_cases name with hf | hf | hf | hf
  · rw [finishField, hactive, hfield]
    simp only [hf, or_true, if_true, Except.ok.injEq]
    constructor
    · rintro rfl
      exact ⟨_, .other, (join_empty _).symm⟩
    · rintro ⟨n, hn, rfl⟩
      cases hn with
      | other => exact (join_empty _).symm
      | address hfields _ => exact absurd hfields (by decide)
  · rw [finishField, hactive, hfield, hvalue (by rw [hfield, hf]; decide), hf]
    simp only [reduceCtorEq, false_or, if_true]
    rw [if_neg (by decide)]
    simp only [Except.ok.injEq]
    constructor
    · rintro rfl
      exact ⟨_, .spam, by simp [join, storeValue]⟩
    · rintro ⟨n, hn, rfl⟩
      cases hn with
      | spam => simp [join, storeValue]
      | address hfields _ => exact absurd hfields (by decide)
  · obtain rfl := hvalue (by rw [hfield, hf]; decide)
    rw [finishField_addresses hactive (by rw [hfield, hf]; decide) (by rw [hfield, hf]; decide)
      h0 hlen, hfield, hf, if_pos rfl]
    constructor
    · rintro ⟨as, has, rfl⟩
      exact ⟨_, .sender has, rfl⟩
    · rintro ⟨n, hn, rfl⟩
      cases hn with
      | sender has => exact ⟨_, has, rfl⟩
      | address hfields _ => exact absurd hfields (by decide)
  · have hne : p.field ≠ 0 ∧ p.field ≠ fieldSpam ∧ p.field ≠ fieldSender := by
      rw [hfield]
      rcases hf with hf | hf | hf <;> rw [hf] <;> decide
    obtain rfl := hvalue hne.1
    rw [finishField_addresses hactive hne.1 hne.2.1 h0 hlen, if_neg hne.2.2]
    constructor
    · rintro ⟨as, has, rfl⟩
      exact ⟨_, hfield ▸ .address (hfield ▸ hf) has, rfl⟩
    · rintro ⟨n, hn, rfl⟩
      rw [← hfield] at hn
      obtain ⟨as, has, rfl⟩ := hn.addresses hne.1 hne.2.1 hne.2.2
      exact ⟨as, has, rfl⟩

/-! ### The lines of a field -/

/-- The parser after more text of its field. -/
def joined (p : HeaderParser) (s : Bytes) (n : ℕ) : HeaderParser :=
  { p with
    line := p.line + n
    value := if p.field ≠ 0 then p.value ++ s else p.value
    valueSize := p.valueSize + s.length }

/-- Continuation lines join the field as one text. -/
theorem headerLines_folded {p : HeaderParser} (hactive : p.active = true) (hsize : p.valueSize ≤ lineMax)
    {ls : List Bytes} (hfold : ∀ l ∈ ls, isFolded l = true) (rest : List Bytes) (m : Message) :
    headerLines p (ls ++ rest) = .ok m ↔ p.valueSize + ls.flatten.length ≤ lineMax ∧
      headerLines (joined p ls.flatten ls.length) rest = .ok m := by
  induction ls generalizing p with
  | nil =>
    have hself : joined p [] 0 = p := by
      cases p
      simp [joined]
    simp [hself, hsize]
  | cons l ls ih =>
    rw [List.cons_append, headerLines, bind_eq_ok_iff, headerLine, if_pos (hfold l (by simp)),
      if_neg (by simp [hactive]), appendValue]
    dsimp only
    by_cases hl : p.valueSize + l.length ≤ lineMax
    · rw [if_neg (by omega)]
      have ih := @ih (joined p l 1) hactive hl fun x hx => hfold x (by simp [hx])
      have hjoin : joined (joined p l 1) ls.flatten ls.length =
          joined p (l :: ls).flatten (l :: ls).length := by
        simp only [joined, List.flatten_cons, List.length_append, List.length_cons]
        by_cases hf : p.field = 0 <;> simp [hf] <;> omega
      rw [hjoin] at ih
      simp only [Except.ok.injEq, exists_eq_left']
      refine Iff.trans ih ?_
      simp only [joined, List.flatten_cons, List.length_append, Nat.add_assoc]
    · rw [if_pos (by omega)]
      simp only [reduceCtorEq, false_and, exists_false, List.flatten_cons, List.length_append,
        false_iff, not_and]
      omega

/-- At a line that starts a field, or at the end, the field before is finished. -/
theorem headerLines_next (p : HeaderParser) {ls : List Bytes}
    (hhead : ∀ l ∈ ls.head?, isFolded l = false) (m : Message) :
    headerLines p ls = .ok m ↔ ∃ n, finishField p = .ok n ∧
      headerLines { p with message := n, active := false } ls = .ok m := by
  cases ls with
  | nil =>
    simp only [headerLines]
    constructor
    · exact fun h => ⟨m, h, finishField_idle rfl⟩
    · rintro ⟨n, hn, hm⟩
      rw [finishField_idle rfl] at hm
      cases hm
      exact hn
  | cons l ls =>
    have hl := hhead l rfl
    simp only [headerLines, headerLine, hl, Bool.false_eq_true, if_false]
    cases hf : finishField p with
    | error f => simp [bind, Except.bind]
    | ok n =>
      simp only [Except.ok.injEq, exists_eq_left', finishField_idle]

/-- The parser after the line that starts a field. -/
def started (p : HeaderParser) (name start : Bytes) : HeaderParser :=
  ⟨p.message, if fieldOf name ≠ 0 then start else [], start.length, p.line + 1, p.line + 1,
    fieldOf name, true⟩

theorem joined_started (p : HeaderParser) {name : Bytes} (hf : fieldOf name ≠ 0) (start s : Bytes)
    (n : ℕ) : (joined (started p name start) s n).value = start ++ s := by
  have hfield : (started p name start).field ≠ 0 := hf
  rw [joined, if_pos hfield]
  dsimp only [started]
  rw [if_pos hf]

/-- A line that starts a field. -/
theorem headerLine_start {p p' : HeaderParser} (hidle : p.active = false) (l : Bytes) :
    headerLine p l = .ok p' ↔ ∃ name value, FieldText l name value ∧ p' = started p name value := by
  obtain ⟨name, hname⟩ : ∃ name, name = l.takeWhile (· != 58) := ⟨_, rfl⟩
  have h58 : ∀ c ∈ name, c ≠ 58 := by
    intro c hc
    have := List.mem_takeWhile_imp (hname ▸ hc)
    simpa using this
  -- The name a field text has is what the reader takes for one.
  have huniq : ∀ name' value, FieldText l name' value → name' = name := by
    intro name' value ht
    rw [hname, ht.eq,
      List.takeWhile_append_of_pos (by simpa using fun c hc => (ht.name_bytes c hc).2.2)]
    simp
  have hplain : ∀ name' value, FieldText l name' value → isFolded l = false := by
    intro name' value ht
    obtain ⟨c, s, rfl⟩ := List.exists_cons_of_ne_nil ht.name_ne_nil
    have hc := (ht.name_bytes c (by simp)).1
    rw [ht.eq]
    have h32 : c ≠ 32 := by
      rintro rfl
      exact absurd hc (by decide)
    have h9 : c ≠ 9 := by
      rintro rfl
      exact absurd hc (by decide)
    simp [isFolded, isBlank, h32, h9]
  by_cases hfold : isFolded l = true
  · rw [headerLine, if_pos hfold, if_pos hidle]
    simp only [reduceCtorEq, false_iff, not_exists, not_and]
    intro name' value ht
    rw [hplain name' value ht] at hfold
    cases hfold
  · rw [headerLine, if_neg hfold, finishField_idle hidle]
    simp only [bind, Except.bind, ← hname]
    by_cases hbytes : ∀ c ∈ name, 33 ≤ c ∧ c ≤ 126
    · rw [if_neg (by simpa using hbytes)]
      by_cases hcolon : name = [] ∨ name.length = l.length
      · rw [if_pos hcolon]
        simp only [reduceCtorEq, false_iff, not_exists, not_and]
        intro name' value ht
        obtain rfl := huniq name' value ht
        rcases hcolon with h | h
        · exact absurd h ht.name_ne_nil
        · rw [ht.eq] at h
          simp at h
      · rw [if_neg hcolon, appendValue]
        push Not at hcolon
        obtain ⟨value, hvalue⟩ : ∃ value, l = name ++ 58 :: value := by
          by_cases h : 58 ∈ l
          · obtain ⟨n, value, rfl, hn⟩ := List.eq_append_cons_of_mem h
            have hall : ∀ c ∈ n, (c != 58) = true := by
              simp only [bne_iff_ne]
              rintro c hc rfl
              exact hn hc
            refine ⟨value, ?_⟩
            rw [hname, List.takeWhile_append_of_pos hall]
            simp
          · have hall : ∀ c ∈ l, (c != 58) = true := by
              simp only [bne_iff_ne]
              rintro c hc rfl
              exact h hc
            refine absurd ?_ hcolon.2
            rw [hname, List.takeWhile_eq_self_iff.mpr hall]
        have hdrop : l.drop (name.length + 1) = value := by
          rw [hvalue]
          simp
        rw [hdrop]
        by_cases hlen : value.length ≤ lineMax
        · rw [if_neg (by simpa using hlen)]
          simp only [Except.ok.injEq, Nat.zero_add, List.nil_append]
          constructor
          · rintro rfl
            exact ⟨name, value, ⟨hvalue, hcolon.1, fun c hc =>
              ⟨(hbytes c hc).1, (hbytes c hc).2, h58 c hc⟩, hlen⟩, rfl⟩
          · rintro ⟨name', value', ht, rfl⟩
            obtain rfl := huniq name' value' ht
            obtain rfl : value' = value := by
              have := ht.eq
              rw [hvalue] at this
              simpa using this.symm
            rfl
        · rw [if_pos (by simpa using hlen)]
          simp only [reduceCtorEq, false_iff, not_exists, not_and]
          intro name' value' ht
          obtain rfl := huniq name' value' ht
          have := ht.eq
          rw [hvalue] at this
          obtain rfl : value = value' := by simpa using this
          exact absurd ht.length hlen
    · rw [if_pos (by simpa [imp_iff_not_or, or_comm] using hbytes)]
      simp only [reduceCtorEq, false_iff, not_exists, not_and]
      intro name' value ht
      obtain rfl := huniq name' value ht
      exact absurd (fun c hc => ⟨(ht.name_bytes c hc).1, (ht.name_bytes c hc).2.1⟩) hbytes

/-- The name and the colon stand in the first line of a field. -/
theorem fieldText_first {l name value : Bytes} {ls : List Bytes}
    (hfold : ∀ x ∈ ls, isFolded x = true) (h : FieldText (l ++ ls.flatten) name value) :
    ∃ start, FieldText l name start ∧ value = start ++ ls.flatten := by
  have hblank : ∀ c s, ls.flatten = c :: s → c = 32 ∨ c = 9 := by
    intro c s heq
    cases ls with
    | nil => simp at heq
    | cons x xs =>
      have hx := hfold x (by simp)
      cases x with
      | nil => simp [isFolded] at hx
      | cons d x =>
        simp only [List.flatten_cons, List.cons_append, List.cons.injEq] at heq
        rw [← heq.1]
        simpa [isFolded, isBlank] using hx
  rcases List.append_eq_append_iff.mp h.eq with ⟨a, ha, hb⟩ | ⟨a, ha, hb⟩
  · -- The line ends within the name or before the colon, so a blank stands there.
    cases a with
    | nil =>
      rcases hblank 58 value (by simpa using hb) with h' | h' <;> exact absurd h' (by decide)
    | cons c a =>
      have hc := (h.name_bytes c (by rw [ha]; simp)).1
      rcases hblank c _ hb with rfl | rfl <;> exact absurd hc (by decide)
  · cases a with
    | nil =>
      rcases hblank 58 value (by simpa using hb.symm) with h' | h' <;> exact absurd h' (by decide)
    | cons c a =>
      simp only [List.cons_append, List.cons.injEq] at hb
      obtain ⟨rfl, rfl⟩ := hb
      refine ⟨a, ⟨ha, h.name_ne_nil, h.name_bytes, ?_⟩, rfl⟩
      have := h.length
      simp only [List.length_append] at this
      omega

theorem FieldText.not_mem {t name value : Bytes} (h : FieldText t name value) {c : Byte}
    (hc : c ∉ t) : c ∉ value := fun hmem => hc (by rw [h.eq]; simp [hmem])

/-- The lines of a header make the message of their fields. -/
theorem headerLines_iff {p : HeaderParser} (hidle : p.active = false) {ls : List Bytes}
    (h0 : ∀ l ∈ ls, 0 ∉ l) (m : Message) :
    headerLines p ls = .ok m ↔ ∃ n, Collects (unfoldLines ls) n ∧ m = join p.message n := by
  induction hn : ls.length using Nat.strong_induction_on generalizing ls p m with
  | _ n ih =>
    cases ls with
    | nil =>
      rw [headerLines, finishField_idle hidle, unfoldLines]
      simp only [Except.ok.injEq]
      constructor
      · rintro rfl
        exact ⟨_, .nil, (join_empty _).symm⟩
      · rintro ⟨n, hn, rfl⟩
        cases hn
        exact (join_empty _).symm
    | cons l ls =>
      obtain ⟨folded, hfolded⟩ : ∃ x, x = ls.takeWhile isFolded := ⟨_, rfl⟩
      obtain ⟨rest, hrest⟩ : ∃ x, x = ls.dropWhile isFolded := ⟨_, rfl⟩
      have hls : ls = folded ++ rest := by rw [hfolded, hrest, List.takeWhile_append_dropWhile]
      have hall : ∀ x ∈ folded, isFolded x = true := fun x hx =>
        List.mem_takeWhile_imp (hfolded ▸ hx)
      have hhead : ∀ x ∈ rest.head?, isFolded x = false := by
        intro x hx
        have := List.head?_dropWhile_not isFolded ls
        rw [← hrest, hx] at this
        exact this
      have ih := fun {p : HeaderParser} (hp : p.active = false) (m : Message) =>
        @ih rest.length (by rw [← hn, hls]; simp) p hp rest (fun x hx => h0 x (by simp [hls, hx]))
          m rfl
      have h0' : 0 ∉ l ++ folded.flatten := by
        rw [List.mem_append, List.mem_flatten]
        rintro (h | ⟨x, hx, h⟩)
        · exact h0 l (by simp) h
        · exact h0 x (by simp [hls, hx]) h
      rw [headerLines, bind_eq_ok_iff, unfoldLines, ← hfolded, ← hrest]
      simp only [headerLine_start hidle]
      rw [hls]
      constructor
      · rintro ⟨_, ⟨name, start, ht, rfl⟩, hm⟩
        rw [headerLines_folded rfl ht.length hall] at hm
        obtain ⟨hlen, hm⟩ := hm
        obtain ⟨n1, hfin, hm⟩ := (headerLines_next _ hhead m).mp hm
        have htext : FieldText (l ++ folded.flatten) name (start ++ folded.flatten) :=
          ⟨by rw [ht.eq]; simp, ht.name_ne_nil, ht.name_bytes,
            by simpa [started] using hlen⟩
        obtain ⟨n2, hadds, rfl⟩ := (@finishField_iff _ name (start ++ folded.flatten) rfl rfl
          (fun hf => joined_started p hf _ _ _) (htext.not_mem h0') htext.length n1).mp hfin
        obtain ⟨n3, hcol, rfl⟩ := (ih rfl m).mp hm
        exact ⟨join n2 n3, .cons htext hadds hcol, join_assoc _ _ _⟩
      · rintro ⟨_, hcol, rfl⟩
        cases hcol with
        | @cons _ name value _ n2 n3 htext hadds hcol =>
          obtain ⟨start, ht, rfl⟩ := fieldText_first hall htext
          refine ⟨_, ⟨name, start, ht, rfl⟩, ?_⟩
          rw [headerLines_folded rfl ht.length hall]
          refine ⟨by simpa [started] using htext.length,
            (headerLines_next _ hhead _).mpr ⟨join p.message n2, ?_, ?_⟩⟩
          · exact (@finishField_iff _ name (start ++ folded.flatten) rfl rfl
              (fun hf => joined_started p hf _ _ _) (htext.not_mem h0') htext.length _).mpr ⟨n2, hadds, rfl⟩
          · exact (ih rfl _).mpr ⟨n3, hcol, (join_assoc _ _ _).symm⟩

/-! ### The reader -/

theorem scanStart_between : Between scanStart := ⟨rfl, Nat.zero_le _, sha256Init_ready⟩

/-- The loop on a header, whatever follows it. -/
theorem feed_header {h : Bytes} {ls : List Bytes} (hb : Block h ls) (rest : Bytes) (e : Ending) :
    conclude e (feed scanStart (h ++ rest)) = conclude .ended (feed scanStart h) := by
  rw [feed_append]
  cases hf : feed scanStart h with
  | error f => rfl
  | ok r =>
    obtain ⟨_, _, m, _, rfl⟩ := (feed_block hb scanStart_between r).mp hf
    rfl

theorem headersParse_eq (m : Bytes) : headersParse m = conclude .ended (feed scanStart m) :=
  parseLoop_eq _ _

theorem headersRead_eq (reads : List ReadResult) :
    headersRead reads = conclude (received reads).2 (feed scanStart (received reads).1) :=
  parseLoop_eq _ _

/-- The result depends on the header alone. -/
theorem headersParse_header {m h : Bytes} (hp : HeaderPart m h) : headersParse m = headersParse h := by
  obtain ⟨rest, rfl, hb⟩ := headerPart_block hp
  rw [headersParse_eq, headersParse_eq, feed_header hb]

theorem headersRead_header {reads : List ReadResult} {h : Bytes}
    (hp : HeaderPart (received reads).1 h) : headersRead reads = headersParse h := by
  obtain ⟨rest, heq, hb⟩ := headerPart_block hp
  rw [headersRead_eq, headersParse_eq, heq, feed_header hb]

/-- A header with its lines is read as the reference says. -/
theorem headersParse_block {h : Bytes} {ls : List Bytes} (hb : Block h ls) (r : MessageHeaders) :
    headersParse h = .ok r ↔ h.length ≤ headersMax ∧ (∀ l ∈ ls, LineText l) ∧
      Collects (unfoldLines ls) r.message ∧ r.wireSize = h.length ∧
      r.wireDigest = SecureHash.hexText (SecureHash.sha256 h) := by
  have hdone : headersParse h = .ok r ↔ feed scanStart h = .ok (.done r) := by
    rw [headersParse_eq]
    cases feed scanStart h with
    | error f => simp [conclude]
    | ok x => cases x <;> simp [conclude]
  have hzero : scanStart.wireSize + h.length = h.length := Nat.zero_add _
  rw [hdone, feed_block hb scanStart_between, hzero]
  refine and_congr_right fun hsize => and_congr_right fun htext => ?_
  have hnul : ∀ l ∈ ls, 0 ∉ l := fun l hl hmem => absurd ((htext l hl).text 0 hmem) (by decide)
  have hdigest : sha256Hex (sha256Update scanStart.hash h) =
      SecureHash.hexText (SecureHash.sha256 h) :=
    sha256Hex_update (Nat.lt_of_le_of_lt hsize (by decide))
  have hjoin : ∀ n, join scanStart.parser.message n = n := fun n => rfl
  simp only [headerLines_iff (p := scanStart.parser) rfl hnul, hjoin, hdigest, exists_eq_right',
    Progress.done.injEq]
  constructor
  · rintro ⟨m, hm, rfl⟩
    exact ⟨hm, rfl, rfl⟩
  · rintro ⟨hm, hwire, hdig⟩
    obtain ⟨m, wire, digest⟩ := r
    exact ⟨m, hm, by simp_all⟩

/-- Reads that give the message in pieces, in order, then the end of the file. -/
structure Splits (reads : List ReadResult) (m : Bytes) : Prop where
  given : ∀ x ∈ reads, x = .interrupted ∨ ∃ data, data ≠ [] ∧ x = .chunk data
  data : (reads.flatMap fun x => match x with | .chunk data => data | _ => []) = m

theorem Splits.received {reads : List ReadResult} {m : Bytes} (h : Splits reads m) :
    received reads = (m, .ended) := by
  obtain ⟨hgiven, rfl⟩ := h
  induction reads with
  | nil => rfl
  | cons x reads ih =>
    have ih := ih fun y hy => hgiven y (by simp [hy])
    rcases hgiven x (by simp) with rfl | ⟨data, hne, rfl⟩
    · simpa [JaroFilter.received] using ih
    · obtain ⟨c, data, rfl⟩ := List.exists_cons_of_ne_nil hne
      simp [JaroFilter.received, ih]

theorem headersParse_iff (m : Bytes) (r : MessageHeaders) :
    headersParse m = .ok r ↔ Reference m r := by
  constructor
  · intro hr
    rcases block_or m with ⟨h, ls, rest, rfl, hb⟩ | hnone
    · have hp := hb.headerPart rest
      rw [headersParse_header hp] at hr
      refine ⟨h, hp, ?_⟩
      rw [hb.lines]
      exact (headersParse_block hb r).mp hr
    · rw [headersParse_eq] at hr
      have hno := feed_unfinished scanStart_between hnone
      cases hf : feed scanStart m with
      | error f => simp [hf, conclude] at hr
      | ok x =>
        cases x with
        | more l => simp [hf, conclude] at hr
        | done r' => exact absurd hf (hno r')
  · rintro ⟨h, hp, hrest⟩
    obtain ⟨_, _, hb⟩ := headerPart_block hp
    rw [headersParse_header hp]
    exact (headersParse_block hb r).mpr hrest

/-- The reader returns what the reference says, however the bytes arrive, and
its result depends on the header alone. -/
theorem headersParse_reference (m : Bytes) :
    (∀ r, headersParse m = .ok r ↔ Reference m r) ∧
      (∀ reads, Splits reads m → headersRead reads = headersParse m) ∧
      ∀ h, HeaderPart m h →
        (∀ m', HeaderPart m' h → headersParse m' = headersParse m) ∧
          ∀ reads, HeaderPart (received reads).1 h → headersRead reads = headersParse m := by
  refine ⟨headersParse_iff m, fun reads hs => ?_,
    fun h hp => ⟨fun m' hp' => ?_, fun reads hp' => ?_⟩⟩
  · rw [headersRead_eq, headersParse_eq, hs.received]
  · rw [headersParse_header hp, headersParse_header hp']
  · rw [headersParse_header hp, headersRead_header hp']

/-- A message with a folded address and both line endings. -/
def sampleText : Bytes := cstr "To:a@\r\n b\n\nbody"

def sampleHeaders : MessageHeaders :=
  ⟨⟨[⟨fieldTo, cstr "a@b"⟩], [], []⟩, 11,
    SecureHash.hexText (SecureHash.sha256 (cstr "To:a@\r\n b\n\n"))⟩

theorem sample_reference : Reference sampleText sampleHeaders := by
  have hlist : AddressList [97, 64, 32, 98] [[97, 64, 98]] := by
    have hrun : ∀ {cls : Byte → Bool} {c : Byte}, cls c = true → Run cls [c] := fun h =>
      ⟨by simp, by simpa using h⟩
    have hspec : AddrSpec [97, 64, 32, 98] [97, 64, 98] := by
      simpa using AddrSpec.mk .nil (.atoms (.last (hrun (by decide)) .nil))
        (.blank (by decide) .nil) (.last (hrun (by decide)) .nil)
    exact .last (.mailbox (.spec hspec))
  have hadds : Adds (fieldOf [84, 111]) [97, 64, 32, 98] ⟨[⟨fieldTo, [97, 64, 98]⟩], [], []⟩ := by
    rw [show fieldOf [84, 111] = fieldTo by decide]
    exact .address (by decide)
      ⟨by decide, _, hlist, .cons ⟨by decide, by decide⟩ .nil⟩
  have hunfold : unfoldLines [[84, 111, 58, 97, 64], [32, 98]] = [[84, 111, 58, 97, 64, 32, 98]] := by
    simp [unfoldLines, isFolded, isBlank]
  have hblock : Block (cstr "To:a@\r\n b\n\n") [[84, 111, 58, 97, 64], [32, 98]] := by
    have h : Block ([84, 111, 58, 97, 64, 13] ++ 10 :: ([32, 98] ++ 10 :: ([] ++ [10])))
        [chopCr [84, 111, 58, 97, 64, 13], chopCr [32, 98]] :=
      .line (by decide) (by decide) (.line (by decide) (by decide) (.empty (by decide) (by decide)))
    have hbytes : cstr "To:a@\r\n b\n\n" =
        [84, 111, 58, 97, 64, 13] ++ 10 :: ([32, 98] ++ 10 :: ([] ++ [10])) := by
      decide
    rw [hbytes]
    exact h
  have htext : sampleText = cstr "To:a@\r\n b\n\n" ++ cstr "body" := by decide
  refine ⟨_, htext ▸ hblock.headerPart (cstr "body"), by decide, ?_, ?_,
    by decide, rfl⟩
  · rw [hblock.lines]
    simp only [List.mem_cons, List.not_mem_nil, or_false]
    rintro l (rfl | rfl)
    · exact ⟨by decide +kernel, by decide +kernel⟩
    · exact ⟨by decide +kernel, by decide +kernel⟩
  · rw [hblock.lines, hunfold, sampleHeaders, show cstr "a@b" = [97, 64, 98] by decide]
    exact .cons ⟨rfl, by decide, by decide +kernel, by decide +kernel⟩ hadds .nil

/-- The sample in two reads, with an interrupted one between them. -/
theorem headersParse_reference_sample :
    headersRead [.chunk (cstr "To:a@\r"), .interrupted, .chunk (cstr "\n b\n\nbody")] =
      .ok sampleHeaders := by
  have hsplits : Splits [.chunk (cstr "To:a@\r"), .interrupted, .chunk (cstr "\n b\n\nbody")]
      sampleText := by
    refine ⟨?_, by decide⟩
    simp only [List.mem_cons, List.not_mem_nil, or_false]
    rintro x (rfl | rfl | rfl)
    · exact Or.inr ⟨_, by decide, rfl⟩
    · exact Or.inl rfl
    · exact Or.inr ⟨_, by decide, rfl⟩
  obtain ⟨hiff, hread, _⟩ := headersParse_reference sampleText
  rw [hread _ hsplits, hiff]
  exact sample_reference

end Unfold

end JaroFilter
