import JaroFilter.Lib.Buffer
import JaroFilter.Policy.Mailbox

/-!
# Normalizing a mailbox in its own buffer (`policy.c:266-304`)

`jf_normalize_mailbox` decodes a quoted local part to the front of the string,
moves the domain after it and, when quotes are needed, encodes backwards from
the end. `normalizeInPlace` is the same on a checked buffer, where a write on a
byte still to be read is an error of the run. It never happens, and the string
left in the buffer is the one `normalizeMailbox` computes.
-/

namespace JaroFilter

open Lib

/-- The four places where the function gives up. -/
inductive Refusal where
  | length | invalid | emptyLocal | capacity
  deriving DecidableEq, Repr

/-- The decode loop (`policy.c:273-276`): the closing quote's index, the number
of decoded bytes and the buffer. `fuel` bounds the loop. -/
def decodeInPlace : ℕ → ℕ → ℕ → Bytes → Option (ℕ × ℕ × Bytes)
  | 0, _, _, _ => none
  | fuel + 1, read, n, mem => do
    let c ← peek mem read
    if c = 34 then return (read, n, mem)
    else
      let read := if c = 92 then read + 1 else read
      let c ← peek mem read
      let mem ← poke ⟨read + 1, mem.length⟩ mem n c
      decodeInPlace fuel (read + 1) (n + 1) mem

/-- The loop over the decoded bytes (`policy.c:280-289`), with `left` of them
to go: whether quotes are needed and how many bytes need a backslash. -/
def scanDecoded : ℕ → ℕ → Bool → Bool → ℕ → Bytes → Option (Bool × ℕ)
  | 0, _, component, quoted, escapes, _ => some (quoted || !component, escapes)
  | left + 1, i, component, quoted, escapes, mem => do
    let c ← peek mem i
    if c = 46 then scanDecoded left (i + 1) false (quoted || !component) escapes mem
    else
      scanDecoded left (i + 1) true (quoted || !isAtext c)
        (if c = 34 ∨ c = 92 then escapes + 1 else escapes) mem

/-- The backward loop (`policy.c:297-301`): `i` decoded bytes are still to be
encoded below `out`. -/
def encodeInPlace : ℕ → ℕ → Bytes → Option Bytes
  | 0, _, mem => some mem
  | i + 1, out, mem => do
    let c ← peek mem i
    let mem ← poke ⟨0, i⟩ mem (out - 1) c
    if c = 34 ∨ c = 92 then
      let mem ← poke ⟨0, i⟩ mem (out - 2) 92
      encodeInPlace i (out - 2) mem
    else encodeInPlace i (out - 1) mem

/-- `jf_normalize_mailbox` (`policy.c:266`) on the buffer that holds `s` and
its terminator: the buffer it leaves, or why it returned 0. -/
def normalizeInPlace (s : Bytes) : Option (Except Refusal Bytes) :=
  let mem := s ++ [0]
  if lineMax < s.length then some (.error .length)
  else if validMailbox s = false then some (.error .invalid)
  else do
    let first ← peek mem 0
    if first ≠ 34 then return .ok mem
    else
      let (read, n, mem) ← decodeInPlace (s.length + 1) 1 0 mem
      if n = 0 then return .error .emptyLocal
      else
        let tail := s.length - read
        let mem ← move ⟨0, n⟩ mem n (read + 1) tail
        let (quoted, escapes) ← scanDecoded n 0 false false 0 mem
        if quoted = false then return .ok mem
        else
          let out := n + escapes + 2
          if s.length + 1 < out + tail then return .error .capacity
          else
            let mem ← move ⟨0, n⟩ mem out n tail
            let mem ← poke ⟨0, n⟩ mem (out - 1) 34
            let mem ← encodeInPlace n (out - 1) mem
            let mem ← poke ⟨0, 0⟩ mem 0 34
            return .ok mem

/-! ### Quoted local parts -/

/-- The bytes between the quotes of a local part and what they decode to. -/
inductive QuotedLocal : Bytes → Bytes → Prop
  | nil : QuotedLocal [] []
  | plain {c : Byte} {q l : Bytes} (hq : c ≠ 34) (hb : c ≠ 92) (ht : isControl c = false)
      (h : QuotedLocal q l) : QuotedLocal (c :: q) (c :: l)
  | pair {c : Byte} {q l : Bytes} (ht : isControl c = false) (h : QuotedLocal q l) :
      QuotedLocal (92 :: c :: q) (c :: l)

/-- `s` is a mailbox with the local part `l`, decoded, at `d`. -/
def Denotes (s l d : Bytes) : Prop :=
  (needsQuotes false l = false ∧ s = l ++ 64 :: d) ∨
    ∃ q, QuotedLocal q l ∧ s = 34 :: q ++ 34 :: 64 :: d

theorem scanQuoted_iff {s l rest : Bytes} :
    scanQuoted false s = some rest ∧ decodeQuoted false s = (l, rest) ↔
      ∃ q, QuotedLocal q l ∧ s = q ++ 34 :: rest := by
  constructor
  · intro h
    obtain ⟨hscan, hdec⟩ := h
    induction hn : s.length using Nat.strong_induction_on generalizing s l with
    | _ n ih =>
      cases s with
      | nil => simp [scanQuoted] at hscan
      | cons c s =>
        simp only [scanQuoted] at hscan
        simp only [decodeQuoted] at hdec
        by_cases h34 : c = 34
        · subst h34
          simp only [if_true, Option.some.injEq, Prod.mk.injEq] at hscan hdec
          obtain ⟨rfl, -⟩ := hdec
          exact ⟨[], .nil, by rw [hscan]; rfl⟩
        · simp only [if_neg h34] at hscan hdec
          by_cases h92 : c = 92
          · subst h92
            simp only [if_true] at hscan hdec
            cases s with
            | nil => simp [scanQuoted] at hscan
            | cons d s =>
              simp only [scanQuoted] at hscan
              simp only [decodeQuoted, Prod.mk.injEq] at hdec
              obtain ⟨rfl, hrest⟩ := hdec
              cases hc : isControl d with
              | true => simp [hc] at hscan
              | false =>
                simp only [hc, Bool.false_eq_true, if_false] at hscan
                obtain ⟨q, hq, hs⟩ := ih s.length (by rw [← hn]; simp only [List.length_cons]; omega)
                  hscan (Prod.ext rfl hrest) rfl
                exact ⟨92 :: d :: q, .pair hc hq, by rw [hs]; rfl⟩
          · simp only [if_neg h92, Prod.mk.injEq] at hscan hdec
            obtain ⟨rfl, hrest⟩ := hdec
            cases hc : isControl c with
            | true => simp [hc] at hscan
            | false =>
              simp only [hc, Bool.false_eq_true, if_false] at hscan
              obtain ⟨q, hq, hs⟩ := ih s.length (by rw [← hn]; simp only [List.length_cons]; omega)
                hscan (Prod.ext rfl hrest) rfl
              exact ⟨c :: q, .plain h34 h92 hc hq, by rw [hs]; rfl⟩
  · intro h
    obtain ⟨q, hq, rfl⟩ := h
    induction hq with
    | nil => simp [scanQuoted, decodeQuoted]
    | plain h34 h92 ht _ ih =>
      simp only [List.cons_append, scanQuoted, decodeQuoted, if_neg h34, if_neg h92, ht, ih,
        Bool.false_eq_true, if_false, and_self]
    | pair ht _ ih =>
      have h92 : ¬ (92 : Byte) = 34 := by decide
      simp only [List.cons_append, scanQuoted, decodeQuoted, if_neg h92, if_true, ht, ih,
        Bool.false_eq_true, if_false, and_self]

theorem spells_iff {s l d : Bytes} : Spells s l d ↔ Denotes s l d := by
  refine or_congr Iff.rfl ?_
  constructor
  · intro h
    obtain ⟨body, rfl, hbody⟩ := h
    obtain ⟨q, hq, rfl⟩ := scanQuoted_iff.mp hbody
    exact ⟨q, hq, rfl⟩
  · intro h
    obtain ⟨q, hq, rfl⟩ := h
    obtain ⟨hscan, hdec⟩ := scanQuoted_iff.mpr ⟨q, hq, rfl⟩
    exact ⟨_, rfl, hscan, hdec⟩

/-- A string denotes one mailbox at most. -/
theorem Denotes.unique {s l d l' d' : Bytes} (h : Denotes s l d) (h' : Denotes s l' d') :
    l = l' ∧ d = d' := by
  have hat : ∀ {l : Bytes}, needsQuotes false l = false → 64 ∉ l := by
    intro l hn hm
    rcases needsQuotes_false_bytes hn 64 hm with ha | ha
    · exact (isAtext_of_ne ha).1 rfl
    · exact absurd ha (by decide)
  rcases h with ⟨hn, rfl⟩ | ⟨q, hq, rfl⟩
  · rcases h' with ⟨hn', heq⟩ | ⟨q', -, heq⟩
    · rw [List.append_eq_append_iff] at heq
      rcases heq with ⟨a, rfl, ha⟩ | ⟨a, rfl, ha⟩
      · cases a with
        | nil => simpa using ha
        | cons c a =>
          obtain ⟨rfl, -⟩ := List.cons.inj ha
          exact absurd (by simp) (hat hn')
      · cases a with
        | nil => simpa [eq_comm] using ha
        | cons c a =>
          obtain ⟨rfl, -⟩ := List.cons.inj ha
          exact absurd (by simp) (hat hn)
    · have hhead := head_of_atoms hn d
      rw [heq] at hhead
      exact absurd rfl hhead
  · rcases h' with ⟨hn', heq⟩ | ⟨q', hq', heq⟩
    · have hhead := head_of_atoms hn' d'
      rw [← heq] at hhead
      exact absurd rfl hhead
    · rw [List.cons_append, List.cons_append] at heq
      have hdec : decodeQuoted false (q ++ 34 :: 64 :: d) = (l, 64 :: d) :=
        (scanQuoted_iff.mpr ⟨q, hq, rfl⟩).2
      have hdec' : decodeQuoted false (q' ++ 34 :: 64 :: d') = (l', 64 :: d') :=
        (scanQuoted_iff.mpr ⟨q', hq', rfl⟩).2
      rw [(List.cons.inj heq).2, hdec'] at hdec
      simp only [Prod.mk.injEq, List.cons.injEq, true_and] at hdec
      exact ⟨hdec.1.symm, hdec.2.symm⟩

/-! ### The run on the buffer -/

/-- Decoding writes behind what it reads. -/
theorem decodeInPlace_spec {q l rest : Bytes} (hq : QuotedLocal q l) (fuel read n : ℕ) (mem : Bytes)
    (hf : q.length < fuel) (hn : n < read) (hmem : mem.drop read = q ++ 34 :: rest) :
    ∃ mem', decodeInPlace fuel read n mem = some (read + q.length, n + l.length, mem') ∧
      mem'.length = mem.length ∧ mem'.take (n + l.length) = mem.take n ++ l ∧
      mem'.drop (read + q.length) = 34 :: rest ∧ n + l.length < read + q.length := by
  induction hq generalizing fuel read n mem with
  | nil =>
    obtain ⟨fuel, rfl⟩ : ∃ k, fuel = k + 1 := ⟨fuel - 1, by omega⟩
    obtain ⟨hc, -, -⟩ := peek_of_drop hmem
    refine ⟨mem, ?_, rfl, by simp, hmem, hn⟩
    simp only [decodeInPlace, hc, Option.bind_eq_bind, Option.bind_some, if_true]
    rfl
  | @plain c q l h34 h92 _ _ ih =>
    obtain ⟨fuel, rfl⟩ : ∃ k, fuel = k + 1 := ⟨fuel - 1, by omega⟩
    obtain ⟨hc, hnext, hlt⟩ := peek_of_drop hmem
    have hdrop : (mem.set n c).drop (read + 1) = q ++ 34 :: rest := by
      rw [List.drop_set_of_lt (by omega)]
      exact hnext
    simp only [List.length_cons] at hf
    have hpoke : poke ⟨read + 1, mem.length⟩ mem n c = some (mem.set n c) :=
      poke_eq c (by omega) (Or.inl (Nat.lt_succ_of_lt hn))
    obtain ⟨mem', hrun, hlen, htake, hend, hle⟩ :=
      ih fuel (read + 1) (n + 1) (mem.set n c) (by omega) (by omega) hdrop
    refine ⟨mem', ?_, by simpa using hlen, ?_, ?_, ?_⟩
    · simp only [decodeInPlace, hc, Option.bind_eq_bind, Option.bind_some, if_neg h34, if_neg h92,
        hpoke, hrun, List.length_cons, Nat.add_assoc, Nat.add_comm 1]
    · rw [take_set_succ c (by omega)] at htake
      rw [List.length_cons, show n + (l.length + 1) = n + 1 + l.length by omega, htake]
      simp
    · rw [List.length_cons, show read + (q.length + 1) = read + 1 + q.length by omega]
      exact hend
    · simp only [List.length_cons]
      omega
  | @pair c q l _ _ ih =>
    obtain ⟨fuel, rfl⟩ : ∃ k, fuel = k + 1 := ⟨fuel - 1, by omega⟩
    obtain ⟨hb, hmid, -⟩ := peek_of_drop hmem
    obtain ⟨hc, hnext, hlt⟩ := peek_of_drop hmid
    have hdrop : (mem.set n c).drop (read + 1 + 1) = q ++ 34 :: rest := by
      rw [List.drop_set_of_lt (by omega)]
      exact hnext
    have h34 : ¬ (92 : Byte) = 34 := by decide
    simp only [List.length_cons] at hf
    have hpoke : poke ⟨read + 1 + 1, mem.length⟩ mem n c = some (mem.set n c) :=
      poke_eq c (by omega) (Or.inl (Nat.lt_succ_of_lt (Nat.lt_succ_of_lt hn)))
    obtain ⟨mem', hrun, hlen, htake, hend, hle⟩ :=
      ih fuel (read + 1 + 1) (n + 1) (mem.set n c) (by omega) (by omega) hdrop
    refine ⟨mem', ?_, by simpa using hlen, ?_, ?_, ?_⟩
    · simp only [decodeInPlace, hb, hc, Option.bind_eq_bind, Option.bind_some, if_neg h34, if_true,
        hpoke, hrun, List.length_cons, Nat.add_assoc, Nat.add_comm 1]
    · rw [take_set_succ c (by omega)] at htake
      rw [List.length_cons, show n + (l.length + 1) = n + 1 + l.length by omega, htake]
      simp
    · simp only [List.length_cons]
      rw [show read + (q.length + 1 + 1) = read + 1 + 1 + q.length by omega]
      exact hend
    · simp only [List.length_cons]
      omega

/-- The bytes of a local part that need a backslash. -/
def specials (l : Bytes) : ℕ := (l.filter fun c => c = 34 ∨ c = 92).length

theorem specials_cons (c : Byte) (l : Bytes) :
    specials (c :: l) = (if c = 34 ∨ c = 92 then 1 else 0) + specials l := by
  by_cases hc : c = 34 ∨ c = 92
  · simp [specials, hc, Nat.add_comm]
  · simp [specials, hc]

theorem escape_length_eq (l : Bytes) : (escape l).length = l.length + specials l := by
  induction l with
  | nil => rfl
  | cons c l ih =>
    rw [specials_cons]
    by_cases hc : c = 34 ∨ c = 92
    · rw [escape_cons_special hc, if_pos hc]
      simp only [List.length_cons]
      omega
    · rw [escape_cons_plain hc, if_neg hc]
      simp only [List.length_cons]
      omega

theorem scanDecoded_spec {l rest : Bytes} (i : ℕ) (component quoted : Bool) (escapes : ℕ)
    {mem : Bytes} (hmem : mem.drop i = l ++ rest) :
    scanDecoded l.length i component quoted escapes mem =
      some (quoted || needsQuotes component l, escapes + specials l) := by
  induction l generalizing i component quoted escapes with
  | nil => rfl
  | cons c l ih =>
    obtain ⟨hc, hnext, -⟩ := peek_of_drop hmem
    have hloop := fun (p q : Bool) (e : ℕ) => ih (i + 1) p q e hnext
    simp only [List.length_cons, scanDecoded, hc, Option.bind_eq_bind, Option.bind_some, needsQuotes,
      specials_cons]
    by_cases h46 : c = 46
    · have hs : ¬ (c = 34 ∨ c = 92) := by
        subst h46
        decide
      simp only [if_pos h46, if_neg hs, hloop, Bool.or_assoc, Nat.zero_add]
    · simp only [if_neg h46, hloop, Bool.or_assoc]
      split
      · rw [Nat.add_assoc]
      · rw [Nat.zero_add]

theorem escape_append (s t : Bytes) : escape (s ++ t) = escape s ++ escape t :=
  List.flatMap_append

/-- Encoding backwards stays above the decoded bytes it has not reached. -/
theorem encodeInPlace_spec {p : Bytes} (mem : Bytes) (out : ℕ) (hp : mem.take p.length = p)
    (hout : out = 1 + (escape p).length) (hle : out ≤ mem.length) :
    ∃ mem', encodeInPlace p.length out mem = some mem' ∧ mem'.length = mem.length ∧
      mem'.drop 1 = escape p ++ mem.drop out := by
  induction p using List.reverseRecOn generalizing mem out with
  | nil =>
    refine ⟨mem, rfl, rfl, ?_⟩
    rw [hout]
    rfl
  | append_singleton p c ih =>
    have hlen : (p ++ [c]).length = p.length + 1 := by simp
    rw [hlen] at hp ⊢
    obtain ⟨hc, hp⟩ := peek_of_take hp rfl
    rw [escape_append, List.length_append] at hout
    have hge : p.length ≤ (escape p).length := by
      rw [escape_length_eq]
      omega
    by_cases hs : c = 34 ∨ c = 92
    · have hone : escape [c] = [92, c] := escape_cons_special hs []
      rw [hone] at hout
      simp only [List.length_cons, List.length_nil] at hout
      have htake : ((mem.set (out - 1) c).set (out - 2) 92).take p.length = p := by
        rw [List.take_set_of_le (by omega), List.take_set_of_le (by omega), hp]
      obtain ⟨mem', hrun, hlen', hdrop⟩ := ih _ (out - 2) htake (by omega) (by simp; omega)
      have hpoke : poke ⟨0, p.length⟩ mem (out - 1) c = some (mem.set (out - 1) c) :=
        poke_eq c (by omega) (Or.inr (show p.length ≤ out - 1 by omega))
      have hpoke' : poke ⟨0, p.length⟩ (mem.set (out - 1) c) (out - 2) 92 =
          some ((mem.set (out - 1) c).set (out - 2) 92) :=
        poke_eq 92 (by simp; omega) (Or.inr (show p.length ≤ out - 2 by omega))
      refine ⟨mem', ?_, by simpa using hlen', ?_⟩
      · simp only [encodeInPlace, hc, Option.bind_eq_bind, Option.bind_some, if_pos hs, hpoke, hpoke',
          hrun]
      · rw [hdrop, drop_set_cons 92 (by simp; omega), show out - 2 + 1 = out - 1 by omega,
          drop_set_cons c (by omega), show out - 1 + 1 = out by omega, escape_append, hone]
        simp
    · have hone : escape [c] = [c] := escape_cons_plain hs []
      rw [hone] at hout
      simp only [List.length_cons, List.length_nil] at hout
      have htake : (mem.set (out - 1) c).take p.length = p := by
        rw [List.take_set_of_le (by omega), hp]
      obtain ⟨mem', hrun, hlen', hdrop⟩ := ih _ (out - 1) htake (by omega) (by simp; omega)
      have hpoke : poke ⟨0, p.length⟩ mem (out - 1) c = some (mem.set (out - 1) c) :=
        poke_eq c (by omega) (Or.inr (show p.length ≤ out - 1 by omega))
      refine ⟨mem', ?_, by simpa using hlen', ?_⟩
      · simp only [encodeInPlace, hc, Option.bind_eq_bind, Option.bind_some, if_neg hs, hpoke, hrun]
      · rw [hdrop, drop_set_cons c (by omega), show out - 1 + 1 = out by omega, escape_append, hone]
        simp

theorem QuotedLocal.facts {q l : Bytes} (h : QuotedLocal q l) :
    l.length + specials l ≤ q.length ∧ 0 ∉ l := by
  have hctl : ∀ c : Byte, isControl c = false → c ≠ 0 := by
    intro c hc h0
    rw [h0] at hc
    simp [isControl] at hc
  induction h with
  | nil => simp [specials]
  | @plain c q l hq hb ht _ ih =>
    obtain ⟨hlen, h0⟩ := ih
    rw [specials_cons, if_neg fun h => h.elim hq hb]
    simp only [List.length_cons, List.mem_cons, not_or]
    exact ⟨by omega, (hctl c ht).symm, h0⟩
  | @pair c q l ht _ ih =>
    obtain ⟨hlen, h0⟩ := ih
    rw [specials_cons]
    simp only [List.length_cons, List.mem_cons, not_or]
    refine ⟨?_, (hctl c ht).symm, h0⟩
    split <;> omega

/-- Moving the domain down, behind the decoded local part. -/
theorem move_tail {mem l t : Bytes} {src : ℕ} (htake : mem.take l.length = l)
    (hdrop : mem.drop src = t) (hlt : l.length ≤ src) (hsrc : src ≤ mem.length) :
    move ⟨0, l.length⟩ mem l.length src t.length =
      some (l ++ t ++ mem.drop (l.length + t.length)) := by
  have hlen : t.length = mem.length - src := by rw [← hdrop, List.length_drop]
  have hdst : l.length + t.length ≤ mem.length := by omega
  have hend : src + t.length ≤ mem.length := by omega
  rw [move_eq hdst hend (Or.inr (le_refl l.length)), htake, hdrop, List.take_length]

/-- The quoted form is written around the local part from its end. -/
theorem requote_spec {l t g : Bytes} {out : ℕ} (hout : out = l.length + specials l + 2)
    (hroom : out + t.length ≤ (l ++ t ++ g).length) :
    ∃ mem mem', (move ⟨0, l.length⟩ (l ++ t ++ g) out l.length t.length).bind
        (fun m => poke ⟨0, l.length⟩ m (out - 1) 34) = some mem ∧
      encodeInPlace l.length (out - 1) mem = some mem' ∧
      ∃ g', poke ⟨0, 0⟩ mem' 0 34 = some (34 :: escape l ++ 34 :: t ++ g') ∧
        (34 :: escape l ++ 34 :: t ++ g').length = (l ++ t ++ g).length := by
  have hesc := escape_length_eq l
  have hlen : (l ++ t ++ g).length = l.length + t.length + g.length := by
    simp only [List.length_append]
  have hcopy : ((l ++ t ++ g).drop l.length).take t.length = t := by
    rw [List.append_assoc, List.drop_left, List.take_left]
  have hfar : l.length ≤ out := by omega
  have hmove : move ⟨0, l.length⟩ (l ++ t ++ g) out l.length t.length =
      some ((l ++ t ++ g).take out ++ t ++ (l ++ t ++ g).drop (out + t.length)) := by
    rw [move_eq hroom (by omega) (Or.inr hfar), hcopy]
  have hout' : ((l ++ t ++ g).take out).length = out := by
    rw [List.length_take, hlen]
    omega
  obtain ⟨a, ha⟩ : ∃ a, a = (l ++ t ++ g).take out := ⟨_, rfl⟩
  obtain ⟨b, hb⟩ : ∃ b, b = (l ++ t ++ g).drop (out + t.length) := ⟨_, rfl⟩
  have hblen : b.length = (l ++ t ++ g).length - (out + t.length) := by rw [hb, List.length_drop]
  have hapre : a.take l.length = l := by
    rw [ha, List.take_take, Nat.min_eq_left hfar, List.append_assoc, List.take_left]
  rw [← ha] at hmove hout'
  rw [← hb] at hmove
  have hmemlen : (a ++ t ++ b).length = (l ++ t ++ g).length := by
    simp only [List.length_append] at hblen hroom ⊢
    omega
  have hpoke : poke ⟨0, l.length⟩ (a ++ t ++ b) (out - 1) 34 =
      some ((a ++ t ++ b).set (out - 1) 34) :=
    poke_eq 34 (by omega) (Or.inr (show l.length ≤ out - 1 by omega))
  have htake : ((a ++ t ++ b).set (out - 1) 34).take l.length = l := by
    rw [List.take_set_of_le (by omega), List.append_assoc, List.take_append_of_le_length (by omega),
      hapre]
  obtain ⟨mem', hrun, hlen', hdrop⟩ := encodeInPlace_spec ((a ++ t ++ b).set (out - 1) 34) (out - 1)
    htake (by omega) (by rw [List.length_set]; omega)
  have hdrop' : mem'.drop 1 = escape l ++ 34 :: t ++ b := by
    rw [hdrop, drop_set_cons 34 (by omega), show out - 1 + 1 = out by omega, List.append_assoc a,
      List.drop_left' hout']
    simp
  have hpos : 0 < mem'.length := by
    rw [hlen', List.length_set]
    omega
  have hlast : mem'.set 0 34 = 34 :: escape l ++ 34 :: t ++ b := by
    have h := drop_set_cons 34 hpos
    rw [List.drop_zero, hdrop'] at h
    rw [h]
    simp
  refine ⟨_, mem', by rw [hmove, Option.bind_some, hpoke], hrun, b, ?_, ?_⟩
  · rw [poke_eq 34 hpos (Or.inr (Nat.zero_le _)), hlast]
  · rw [← hlast, List.length_set, hlen', List.length_set, hmemlen]

theorem cstringAt_zero {t : Bytes} (h : 0 ∉ t) (g : Bytes) : cstringAt (t ++ 0 :: g) 0 = t :=
  takeWhile_append_zero h g

/-- The run on a mailbox that starts with a quote, past its checks. -/
theorem normalizeInPlace_quote {s : Bytes} (hlen : s.length ≤ lineMax) (hvalid : validMailbox s = true)
    (hfirst : peek (s ++ [0]) 0 = some 34) : normalizeInPlace s = (do
      let (read, n, mem) ← decodeInPlace (s.length + 1) 1 0 (s ++ [0])
      if n = 0 then return .error .emptyLocal
      else
        let tail := s.length - read
        let mem ← move ⟨0, n⟩ mem n (read + 1) tail
        let (quoted, escapes) ← scanDecoded n 0 false false 0 mem
        if quoted = false then return .ok mem
        else
          let out := n + escapes + 2
          if s.length + 1 < out + tail then return .error .capacity
          else
            let mem ← move ⟨0, n⟩ mem out n tail
            let mem ← poke ⟨0, n⟩ mem (out - 1) 34
            let mem ← encodeInPlace n (out - 1) mem
            let mem ← poke ⟨0, 0⟩ mem 0 34
            return .ok mem) := by
  rw [normalizeInPlace, if_neg (by omega), if_neg (by simp [hvalid])]
  simp only [hfirst, Option.bind_eq_bind, Option.bind_some, ne_eq, not_true_eq_false, if_false]

/-- What the run leaves of a local part that needs no quotes. -/
theorem cstringAt_plain {l d : Bytes} (hl : 0 ∉ l) (hd : 0 ∉ d) (g : Bytes) :
    cstringAt (l ++ (64 :: d ++ [0]) ++ g) 0 = l ++ 64 :: d := by
  have h0 : 0 ∉ l ++ 64 :: d := by
    simp only [List.mem_append, List.mem_cons, not_or]
    exact ⟨hl, by decide, hd⟩
  simpa using cstringAt_zero h0 g

/-- And of one that is quoted again. -/
theorem cstringAt_quoted {l d : Bytes} (hl : 0 ∉ l) (hd : 0 ∉ d) (g : Bytes) :
    cstringAt (34 :: escape l ++ 34 :: (64 :: d ++ [0]) ++ g) 0 = 34 :: escape l ++ 34 :: 64 :: d := by
  have h0 : 0 ∉ 34 :: escape l ++ 34 :: 64 :: d := by
    simp only [List.cons_append, List.mem_append, List.mem_cons, not_or]
    refine ⟨by decide, fun hm => ?_, by decide, by decide, hd⟩
    rcases mem_escape hm with h | h
    · exact absurd h (by decide)
    · exact hl h
  simpa using cstringAt_zero h0 g

/-- The run on a quoted mailbox. -/
theorem normalizeInPlace_quoted {q l d : Bytes} (hq : QuotedLocal q l) (hd : validDomain d = true)
    (hlen : (34 :: q ++ 34 :: 64 :: d).length ≤ lineMax)
    (hvalid : validMailbox (34 :: q ++ 34 :: 64 :: d) = true) :
    (l = [] ∧ normalizeInPlace (34 :: q ++ 34 :: 64 :: d) = some (.error .emptyLocal)) ∨
      l ≠ [] ∧ ∃ mem, normalizeInPlace (34 :: q ++ 34 :: 64 :: d) = some (.ok mem) ∧
        mem.length = (34 :: q ++ 34 :: 64 :: d).length + 1 ∧ cstringAt mem 0 = canonical l d := by
  obtain ⟨hshort, hl0⟩ := hq.facts
  have hd0 : 0 ∉ d := by
    intro hm
    rcases validDomain_bytes hd 0 hm with h | h <;> exact absurd h (by decide)
  obtain ⟨s, hs⟩ : ∃ s, s = 34 :: q ++ 34 :: 64 :: d := ⟨_, rfl⟩
  have hslen : s.length = q.length + d.length + 3 := by
    rw [hs]
    simp only [List.length_append, List.length_cons]
    omega
  -- `t` is what the two moves carry: the domain and the terminator
  obtain ⟨t, ht⟩ : ∃ t : Bytes, t = 64 :: d ++ [0] := ⟨_, rfl⟩
  have htlen : t.length = d.length + 2 := by
    rw [ht]
    simp
  have hmem : (s ++ [0]).drop 1 = q ++ 34 :: t := by
    rw [hs, ht]
    simp
  have hfirst : peek (s ++ [0]) 0 = some 34 := by
    rw [hs]
    rfl
  obtain ⟨mem, hdec, hmlen, htake, hdrop, hlt⟩ :=
    decodeInPlace_spec hq (s.length + 1) 1 0 (s ++ [0]) (by omega) (by omega) hmem
  simp only [Nat.zero_add, List.take_zero, List.nil_append] at hdec htake hlt
  rw [List.length_append, List.length_singleton] at hmlen
  rw [← hs] at hlen hvalid ⊢
  rw [normalizeInPlace_quote hlen hvalid hfirst]
  simp only [hdec, Option.bind_eq_bind, Option.bind_some]
  cases l with
  | nil => exact .inl ⟨rfl, rfl⟩
  | cons c l' =>
    obtain ⟨l, hl⟩ : ∃ l, l = c :: l' := ⟨_, rfl⟩
    rw [← hl] at hl0 hshort htake hlt ⊢
    have hne : l.length ≠ 0 := by
      rw [hl]
      simp
    refine .inr ⟨fun he => hne (by rw [he]; rfl), ?_⟩
    have htail : s.length - (1 + q.length) = t.length := by omega
    have hnext : mem.drop (1 + q.length + 1) = t := (peek_of_drop hdrop).2.1
    rw [if_neg hne, htail, move_tail htake hnext (by omega) (by omega)]
    obtain ⟨g, hg⟩ : ∃ g, g = mem.drop (l.length + t.length) := ⟨_, rfl⟩
    have hglen : (l ++ t ++ g).length = s.length + 1 := by
      rw [hg]
      simp only [List.length_append, List.length_drop]
      omega
    have hview : (l ++ t ++ g).drop 0 = l ++ (t ++ g) := by rw [List.drop_zero, List.append_assoc]
    have hscan : scanDecoded l.length 0 false false 0 (l ++ t ++ g) =
        some (needsQuotes false l, specials l) := by
      rw [scanDecoded_spec 0 false false 0 hview, Bool.false_or, Nat.zero_add]
    simp only [← hg, Option.bind_some, hscan]
    cases hn : needsQuotes false l with
    | false =>
      refine ⟨l ++ t ++ g, rfl, hglen, ?_⟩
      rw [canonical, hn, ht]
      exact cstringAt_plain hl0 hd0 g
    | true =>
      have hroom : ¬ s.length + 1 < l.length + specials l + 2 + t.length := by omega
      obtain ⟨m, m', hm, henc, g', hlast, hlen'⟩ := @requote_spec l t g _ rfl (by omega)
      refine ⟨34 :: escape l ++ 34 :: t ++ g', ?_, by rw [hlen', hglen], ?_⟩
      · rw [Option.bind_eq_some_iff] at hm
        obtain ⟨m₀, hmove, hpoke⟩ := hm
        simp only [Bool.true_eq_false, if_false, if_neg hroom, hmove, Option.bind_some, hpoke, henc,
          hlast]
        rfl
      · rw [canonical, hn, ht]
        exact cstringAt_quoted hl0 hd0 g'

/-- The run never fails, never reaches its capacity check's refusal, and
leaves the string `normalizeMailbox` computes. -/
theorem normalizeInPlace_spec {s : Bytes} (h0 : 0 ∉ s) :
    ∃ r, normalizeInPlace s = some r ∧ r ≠ .error .capacity ∧
      ∀ t, normalizeMailbox s = some t ↔
        ∃ mem, r = .ok mem ∧ mem.length = s.length + 1 ∧ cstringAt mem 0 = t := by
  by_cases hlen : lineMax < s.length
  · refine ⟨.error .length, by rw [normalizeInPlace, if_pos hlen], by simp, ?_⟩
    simp [normalizeMailbox, hlen]
  cases hvalid : validMailbox s with
  | false =>
    refine ⟨.error .invalid, by rw [normalizeInPlace, if_neg hlen, if_pos hvalid], by simp, ?_⟩
    simp [normalizeMailbox, hvalid]
  | true =>
    obtain ⟨l, d, hspell, htext, hd⟩ := validMailbox_iff.mp hvalid
    have hnormal : ∀ t, normalizeMailbox s = some t ↔ l ≠ [] ∧ t = canonical l d := by
      intro t
      rw [normalizeMailbox_eq_some_iff]
      constructor
      · intro h
        obtain ⟨-, l', d', hm, hs', rfl⟩ := h
        obtain ⟨rfl, rfl⟩ := (spells_iff.mp hspell).unique (spells_iff.mp hs')
        exact ⟨hm.ne_nil, rfl⟩
      · intro h
        exact ⟨by omega, l, d, ⟨h.1, htext, hd⟩, hspell, h.2⟩
    rcases spells_iff.mp hspell with ⟨hn, rfl⟩ | ⟨q, hq, rfl⟩
    · have hne := needsQuotes_false_ne_nil hn
      have hhead := head_of_atoms hn d
      refine ⟨.ok (l ++ 64 :: d ++ [0]), ?_, by simp, ?_⟩
      · have hfirst : ∃ c, peek (l ++ 64 :: d ++ [0]) 0 = some c ∧ c ≠ 34 := by
          cases l with
          | nil => exact absurd rfl hne
          | cons c l =>
            rw [List.cons_append] at hhead ⊢
            exact ⟨c, rfl, by simpa using hhead⟩
        obtain ⟨c, hc, hc34⟩ := hfirst
        rw [normalizeInPlace, if_neg hlen, if_neg (by simp [hvalid])]
        simp only [hc, Option.bind_eq_bind, Option.bind_some, if_pos hc34]
        rfl
      · intro t
        rw [hnormal, canonical, hn]
        constructor
        · intro h
          exact ⟨_, rfl, by rw [List.length_append]; rfl, by rw [h.2]; exact cstringAt_zero h0 []⟩
        · intro h
          obtain ⟨mem, he, -, hstr⟩ := h
          injection he with he
          rw [← he] at hstr
          refine ⟨hne, ?_⟩
          rw [← hstr]
          exact cstringAt_zero h0 []
    · rcases normalizeInPlace_quoted hq hd (by omega) hvalid with ⟨rfl, hrun⟩ | ⟨hne, mem, hrun, hmem, hstr⟩
      · refine ⟨_, hrun, by simp, ?_⟩
        intro t
        rw [hnormal]
        simp
      · refine ⟨_, hrun, by simp, ?_⟩
        intro t
        rw [hnormal]
        constructor
        · intro h
          exact ⟨mem, rfl, hmem, by rw [h.2]; exact hstr⟩
        · intro h
          obtain ⟨mem', he, -, hstr'⟩ := h
          injection he with he
          exact ⟨hne, by rw [← hstr', ← he, hstr]⟩

theorem canonical_inj {l d l' d' : Bytes} (h : IsMailbox l d) (h' : IsMailbox l' d')
    (he : canonical l d = canonical l' d') : l = l' ∧ d = d' := by
  have hs := spells_iff.mp (canonical_spells h)
  have hs' := spells_iff.mp (canonical_spells h')
  rw [← he] at hs'
  exact hs.unique hs'

/-- What is refused of the valid mailboxes. -/
theorem normalizeMailbox_eq_none_iff {s : Bytes} (hvalid : validMailbox s = true) :
    normalizeMailbox s = none ↔ lineMax < s.length ∨ ∃ d, s = 34 :: 34 :: 64 :: d := by
  obtain ⟨l, d, hspell, htext, hd⟩ := validMailbox_iff.mp hvalid
  constructor
  · intro h
    by_contra hne
    rw [not_or] at hne
    obtain ⟨hlen, hempty⟩ := hne
    have hl : l ≠ [] := by
      intro he
      rw [he] at hspell
      rcases spells_iff.mp hspell with ⟨hn, -⟩ | ⟨q, hq, rfl⟩
      · simp [needsQuotes] at hn
      · cases hq
        exact hempty ⟨d, rfl⟩
    have hsome : normalizeMailbox s = some (canonical l d) :=
      normalizeMailbox_eq_some_iff.mpr ⟨by omega, l, d, ⟨hl, htext, hd⟩, hspell, rfl⟩
    rw [h] at hsome
    cases hsome
  · intro h
    by_contra hne
    obtain ⟨t, ht⟩ := Option.ne_none_iff_exists'.mp hne
    obtain ⟨hlen, l', d', hm, hs', -⟩ := normalizeMailbox_eq_some_iff.mp ht
    rcases h with h | ⟨e, rfl⟩
    · omega
    · have hempty : Denotes (34 :: 34 :: 64 :: e) [] e := .inr ⟨[], .nil, rfl⟩
      exact hm.ne_nil ((spells_iff.mp hs').unique hempty).1

/-- Normalizing is taking the canonical form of the mailbox a string denotes,
and the in-place run computes it without losing a byte. -/
theorem normalizeMailbox_canonical_form {s : Bytes} (h0 : 0 ∉ s) :
    (∀ t, normalizeMailbox s = some t →
      validMailbox t = true ∧ t.length ≤ s.length ∧ normalizeMailbox t = some t ∧
        ∃ l d, Denotes s l d ∧ Denotes t l d ∧
          ∀ s' t' l' d', normalizeMailbox s' = some t' → Denotes s' l' d' →
            (t = t' ↔ l = l' ∧ d = d')) ∧
      (∃ r, normalizeInPlace s = some r ∧ r ≠ .error .capacity ∧
        ∀ t, normalizeMailbox s = some t ↔
          ∃ mem, r = .ok mem ∧ mem.length = s.length + 1 ∧ cstringAt mem 0 = t) ∧
      (validMailbox s = true →
        (normalizeMailbox s = none ↔ lineMax < s.length ∨ ∃ d, s = 34 :: 34 :: 64 :: d)) := by
  refine ⟨?_, normalizeInPlace_spec h0, normalizeMailbox_eq_none_iff⟩
  intro t ht
  have hle := normalizeMailbox_length ht
  obtain ⟨hlen, l, d, hm, hs, rfl⟩ := normalizeMailbox_eq_some_iff.mp ht
  have hcanon := canonical_spells hm
  refine ⟨validMailbox_iff.mpr ⟨l, d, hcanon, hm.text, hm.domain⟩, hle,
    normalizeMailbox_canonical hm (by omega), l, d, spells_iff.mp hs, spells_iff.mp hcanon, ?_⟩
  intro s' t' l' d' ht' hden
  obtain ⟨-, l₁, d₁, hm', hs', rfl⟩ := normalizeMailbox_eq_some_iff.mp ht'
  obtain ⟨rfl, rfl⟩ := (spells_iff.mp hs').unique hden
  constructor
  · intro he
    exact canonical_inj hm hm' he
  · intro he
    rw [he.1, he.2]

/-- `"a"@b` is `a@b`. -/
theorem normalizeMailbox_canonical_form_sample :
    validMailbox [97, 64, 98] = true ∧ normalizeMailbox [97, 64, 98] = some [97, 64, 98] := by
  have ht : normalizeMailbox [34, 97, 34, 64, 98] = some [97, 64, 98] := by decide
  obtain ⟨hvalid, -, hagain, -⟩ := (normalizeMailbox_canonical_form (by decide)).1 _ ht
  exact ⟨hvalid, hagain⟩

end JaroFilter
