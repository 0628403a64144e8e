import JaroFilter.Lib.Result
import JaroFilter.Policy.Types

/-!
# Policy text: UTF-8 and the token lexer (`policy.c:88-209`)

`validUtf8` is the whole-buffer check, `lex` the token lexer shared by the
policy and profile readers: bare tokens, JSON-quoted tokens, comments at token
positions, at most five tokens a line.
-/

namespace JaroFilter

open Lib

/-! ### UTF-8 -/

def isCont (c : Byte) : Bool := c &&& 0xc0 == 0x80

/-- `(c<<6)|(s[i]&63)`. -/
def addCont (acc : ℕ) (c : Byte) : ℕ := (acc <<< 6) ||| (c.toNat &&& 63)

/-- The check after the last continuation byte: not overlong, in range, no surrogate. -/
def scalarFrom (min c : ℕ) : Bool := !(c < min || 0x10ffff < c || (0xd800 ≤ c && c ≤ 0xdfff))

/-- `jf_valid_utf8` (`policy.c:90`): NUL, overlong forms, surrogates, isolated
continuations and truncation are refused. -/
def validUtf8 : Bytes → Bool
  | [] => true
  | c :: s =>
    if c = 0 then false
    else if c < 128 then validUtf8 s
    else if 0xc2 ≤ c ∧ c ≤ 0xdf then
      match s with
      | a :: s => isCont a && scalarFrom 0x80 (addCont (c.toNat &&& 31) a) && validUtf8 s
      | _ => false
    else if 0xe0 ≤ c ∧ c ≤ 0xef then
      match s with
      | a :: b :: s =>
        isCont a && isCont b && scalarFrom 0x800 (addCont (addCont (c.toNat &&& 15) a) b) &&
          validUtf8 s
      | _ => false
    else if 0xf0 ≤ c ∧ c ≤ 0xf4 then
      match s with
      | a :: b :: d :: s =>
        isCont a && isCont b && isCont d &&
          scalarFrom 0x10000 (addCont (addCont (addCont (c.toNat &&& 7) a) b) d) && validUtf8 s
      | _ => false
    else false

/-- A continuation byte is not ASCII, and folding does not change that. -/
theorem isCont_table :
    ∀ c : Byte, (c < 128 → isCont c = false) ∧ isCont (foldByte c) = isCont c := by
  decide +kernel

theorem isCont_of_lt {c : Byte} (h : c < 128) : isCont c = false := (isCont_table c).1 h

/-- One turn of the loop, at the lead byte. -/
theorem validUtf8_cons (c : Byte) (s : Bytes) :
    validUtf8 (c :: s) =
      if c = 0 then false
      else if c < 128 then validUtf8 s
      else if 0xc2 ≤ c ∧ c ≤ 0xdf then
        match s with
        | a :: s => isCont a && scalarFrom 0x80 (addCont (c.toNat &&& 31) a) && validUtf8 s
        | _ => false
      else if 0xe0 ≤ c ∧ c ≤ 0xef then
        match s with
        | a :: b :: s =>
          isCont a && isCont b && scalarFrom 0x800 (addCont (addCont (c.toNat &&& 15) a) b) &&
            validUtf8 s
        | _ => false
      else if 0xf0 ≤ c ∧ c ≤ 0xf4 then
        match s with
        | a :: b :: d :: s =>
          isCont a && isCont b && isCont d &&
            scalarFrom 0x10000 (addCont (addCont (addCont (c.toNat &&& 7) a) b) d) && validUtf8 s
        | _ => false
      else false :=
  validUtf8.eq_def (c :: s)

/-- A complete text in front changes nothing about what follows. -/
theorem validUtf8_append {a : Bytes} (b : Bytes) (ha : validUtf8 a = true) :
    validUtf8 (a ++ b) = validUtf8 b := by
  fun_induction validUtf8 a with
  | case1 => rfl
  | case2 s => exact absurd ha (by simp)
  | case3 c s h0 h1 ih =>
    rw [List.cons_append, validUtf8_cons, if_neg h0, if_pos h1, ih ha]
  | case4 c h0 h1 h2 a s ih =>
    simp only [Bool.and_eq_true] at ha
    rw [List.cons_append, validUtf8_cons, if_neg h0, if_neg h1, if_pos h2]
    simp only [List.cons_append, ha, ih ha.2, Bool.true_and]
  | case5 => exact absurd ha (by simp)
  | case6 c h0 h1 h2 h3 a b s ih =>
    simp only [Bool.and_eq_true] at ha
    rw [List.cons_append, validUtf8_cons, if_neg h0, if_neg h1, if_neg h2, if_pos h3]
    simp only [List.cons_append, ha, ih ha.2, Bool.true_and]
  | case7 => exact absurd ha (by simp)
  | case8 c h0 h1 h2 h3 h4 a b d s ih =>
    simp only [Bool.and_eq_true] at ha
    rw [List.cons_append, validUtf8_cons, if_neg h0, if_neg h1, if_neg h2, if_neg h3, if_pos h4]
    simp only [List.cons_append, ha, ih ha.2, Bool.true_and]
  | case9 => exact absurd ha (by simp)
  | case10 => exact absurd ha (by simp)

/-- An ASCII byte stands at a character boundary: what precedes it is complete. -/
theorem validUtf8_of_append_ascii {a b : Bytes} {c : Byte} (hc : c < 128)
    (h : validUtf8 (a ++ c :: b) = true) : validUtf8 a = true := by
  have hcont := isCont_of_lt hc
  fun_induction validUtf8 a with
  | case1 => rfl
  | case2 s => rw [List.cons_append, validUtf8_cons, if_pos rfl] at h; exact h
  | case3 e s h0 h1 ih =>
    rw [List.cons_append, validUtf8_cons, if_neg h0, if_pos h1] at h
    exact ih h
  | case4 e h0 h1 h2 a s ih =>
    rw [List.cons_append, validUtf8_cons, if_neg h0, if_neg h1, if_pos h2] at h
    simp only [List.cons_append, Bool.and_eq_true] at h ⊢
    exact ⟨h.1, ih h.2⟩
  | case5 e s h0 h1 h2 hs =>
    rw [List.cons_append, validUtf8_cons, if_neg h0, if_neg h1, if_pos h2] at h
    match s with
    | [] => simp [hcont] at h
    | x :: s => exact absurd rfl (hs x s)
  | case6 e h0 h1 h2 h3 a b s ih =>
    rw [List.cons_append, validUtf8_cons, if_neg h0, if_neg h1, if_neg h2, if_pos h3] at h
    simp only [List.cons_append, Bool.and_eq_true] at h ⊢
    exact ⟨h.1, ih h.2⟩
  | case7 e s h0 h1 h2 h3 hs =>
    rw [List.cons_append, validUtf8_cons, if_neg h0, if_neg h1, if_neg h2, if_pos h3] at h
    match s with
    | [] => cases b <;> simp [hcont] at h
    | [x] => simp [hcont] at h
    | x :: y :: s => exact absurd rfl (hs x y s)
  | case8 e h0 h1 h2 h3 h4 a b d s ih =>
    rw [List.cons_append, validUtf8_cons, if_neg h0, if_neg h1, if_neg h2, if_neg h3,
      if_pos h4] at h
    simp only [List.cons_append, Bool.and_eq_true] at h ⊢
    exact ⟨h.1, ih h.2⟩
  | case9 e s h0 h1 h2 h3 h4 hs =>
    rw [List.cons_append, validUtf8_cons, if_neg h0, if_neg h1, if_neg h2, if_neg h3,
      if_pos h4] at h
    match s with
    | [] =>
      match b with
      | [] => simp at h
      | [_] => simp at h
      | _ :: _ :: _ => simp [hcont] at h
    | [x] => cases b <;> simp [hcont] at h
    | [x, y] => simp [hcont] at h
    | x :: y :: z :: s => exact absurd rfl (hs x y z s)
  | case10 e s h0 h1 h2 h3 h4 =>
    rw [List.cons_append, validUtf8_cons, if_neg h0, if_neg h1, if_neg h2, if_neg h3,
      if_neg h4] at h
    exact h

theorem validUtf8_cons_ascii {c : Byte} (hc : c < 128) (h0 : c ≠ 0) (s : Bytes) :
    validUtf8 (c :: s) = validUtf8 s := by
  rw [validUtf8_cons, if_neg h0, if_pos hc]

/-- Splitting at an ASCII byte. -/
theorem validUtf8_append_ascii {c : Byte} (hc : c < 128) (h0 : c ≠ 0) (a b : Bytes) :
    validUtf8 (a ++ c :: b) = true ↔ validUtf8 a = true ∧ validUtf8 b = true := by
  constructor
  · intro h
    have ha := validUtf8_of_append_ascii hc h
    rw [validUtf8_append _ ha, validUtf8_cons_ascii hc h0] at h
    exact ⟨ha, h⟩
  · rintro ⟨ha, hb⟩
    rw [validUtf8_append _ ha, validUtf8_cons_ascii hc h0]
    exact hb

theorem validUtf8_not_nul {s : Bytes} (h : validUtf8 s = true) : 0 ∉ s := by
  intro hm
  obtain ⟨a, b, rfl⟩ := List.append_of_mem hm
  have ha : validUtf8 a = true := validUtf8_of_append_ascii (by decide) h
  rw [validUtf8_append _ ha, validUtf8_cons, if_pos rfl] at h
  exact absurd h (by decide)

theorem foldByte_of_ge {c : Byte} (h : ¬ c < 128) : foldByte c = c :=
  foldByte_of_not_upper (by grind)

/-- ASCII folding leaves every multi-byte sequence alone. -/
theorem validUtf8_fold {s : Bytes} (h : validUtf8 s = true) : validUtf8 (foldBytes s) = true := by
  have hcont : ∀ c : Byte, isCont c = true → foldByte c = c := by
    intro c hc
    refine foldByte_of_ge fun hlt => ?_
    rw [isCont_of_lt hlt] at hc
    exact absurd hc (by decide)
  fun_induction validUtf8 s with
  | case1 => rfl
  | case2 s => exact absurd h (by simp)
  | case3 c s h0 h1 ih =>
    have hz : foldByte c ≠ 0 := by
      rw [ne_eq, foldByte_eq_iff (by decide) (by decide)]
      exact h0
    have hlt : foldByte c < 128 := by
      unfold foldByte
      grind
    rw [foldBytes_cons, validUtf8_cons_ascii hlt hz]
    exact ih h
  | case4 c h0 h1 h2 a s ih =>
    simp only [Bool.and_eq_true] at h
    rw [foldBytes_cons, foldByte_of_ge h1, validUtf8_cons, if_neg h0, if_neg h1, if_pos h2]
    simp only [foldBytes_cons, hcont a h.1.1, h, ih h.2, Bool.true_and]
  | case5 => exact absurd h (by simp)
  | case6 c h0 h1 h2 h3 a b s ih =>
    simp only [Bool.and_eq_true] at h
    rw [foldBytes_cons, foldByte_of_ge h1, validUtf8_cons, if_neg h0, if_neg h1, if_neg h2,
      if_pos h3]
    simp only [foldBytes_cons, hcont a h.1.1.1, hcont b h.1.1.2, h, ih h.2, Bool.true_and]
  | case7 => exact absurd h (by simp)
  | case8 c h0 h1 h2 h3 h4 a b d s ih =>
    simp only [Bool.and_eq_true] at h
    rw [foldBytes_cons, foldByte_of_ge h1, validUtf8_cons, if_neg h0, if_neg h1, if_neg h2,
      if_neg h3, if_pos h4]
    simp only [foldBytes_cons, hcont a h.1.1.1.1, hcont b h.1.1.1.2, hcont d h.1.1.2, h, ih h.2,
      Bool.true_and]
  | case9 => exact absurd h (by simp)
  | case10 => exact absurd h (by simp)

/-- Escaping puts ASCII bytes at character boundaries only. -/
theorem validUtf8_escape {s : Bytes} (h : validUtf8 s = true) : validUtf8 (escape s) = true := by
  -- the bytes since the last special are carried along in front
  suffices hpre : ∀ pre : Bytes, validUtf8 (pre ++ s) = true → validUtf8 (pre ++ escape s) = true by
    simpa using hpre [] (by simpa using h)
  clear h
  induction s with
  | nil => exact fun pre hp => by simpa using hp
  | cons c s ih =>
    intro pre hp
    by_cases hc : c = 34 ∨ c = 92
    · have hlt : c < 128 := by rcases hc with rfl | rfl <;> decide
      have h0 : c ≠ 0 := by rcases hc with rfl | rfl <;> decide
      obtain ⟨h1, h2⟩ := (validUtf8_append_ascii hlt h0 _ _).mp hp
      rw [escape_cons_special hc, validUtf8_append_ascii (by decide) (by decide),
        validUtf8_cons_ascii hlt h0]
      exact ⟨h1, by simpa using ih [] (by simpa using h2)⟩
    · rw [escape_cons_plain hc]
      simpa using ih (pre ++ [c]) (by simpa using hp)

/-! ### JSON escapes -/

def hexDigit (c : Byte) : Option ℕ :=
  if 48 ≤ c ∧ c ≤ 57 then some (c.toNat - 48)
  else if 97 ≤ c ∧ c ≤ 102 then some (c.toNat - 97 + 10)
  else if 65 ≤ c ∧ c ≤ 70 then some (c.toNat - 65 + 10)
  else none

/-- `hex4` (`policy.c:112`): four hexadecimal digits. -/
def hex4 (a b c d : Byte) : Option ℕ := do
  let a ← hexDigit a
  let b ← hexDigit b
  let c ← hexDigit c
  let d ← hexDigit d
  return ((((a <<< 4 ||| b) <<< 4) ||| c) <<< 4) ||| d

/-- `encode` (`policy.c:129`): the UTF-8 bytes of a code point. -/
def encode (c : ℕ) : Bytes :=
  if c < 0x80 then [UInt8.ofNat c]
  else if c < 0x800 then [UInt8.ofNat (0xc0 ||| c >>> 6), UInt8.ofNat (0x80 ||| (c &&& 63))]
  else if c < 0x10000 then
    [UInt8.ofNat (0xe0 ||| c >>> 12), UInt8.ofNat (0x80 ||| ((c >>> 6) &&& 63)),
      UInt8.ofNat (0x80 ||| (c &&& 63))]
  else
    [UInt8.ofNat (0xf0 ||| c >>> 18), UInt8.ofNat (0x80 ||| ((c >>> 12) &&& 63)),
      UInt8.ofNat (0x80 ||| ((c >>> 6) &&& 63)), UInt8.ofNat (0x80 ||| (c &&& 63))]

/-- The one-letter escapes of a quoted token. -/
def shortEscape (c : Byte) : Option Byte :=
  if c = 34 ∨ c = 92 ∨ c = 47 then some c
  else if c = 98 then some 8
  else if c = 102 then some 12
  else if c = 110 then some 10
  else if c = 114 then some 13
  else if c = 116 then some 9
  else none

/-- A `\u` escape after its `u`: the code point and the rest of the line. A
high surrogate takes its low half from a second escape. -/
def unicodeEscape : Bytes → Except Fault (ℕ × Bytes)
  | a :: b :: c :: d :: s =>
    match hex4 a b c d with
    | none => .error (fault .eQuote "invalid Unicode escape")
    | some high =>
      if 0xd800 ≤ high ∧ high ≤ 0xdbff then
        match s with
        | 92 :: 117 :: e :: f :: g :: h :: s =>
          match hex4 e f g h with
          | some low =>
            if 0xdc00 ≤ low ∧ low ≤ 0xdfff then
              .ok (0x10000 + ((high - 0xd800) <<< 10) + (low - 0xdc00), s)
            else .error (fault .eQuote "unpaired Unicode surrogate")
          | none => .error (fault .eQuote "unpaired Unicode surrogate")
        | _ => .error (fault .eQuote "unpaired Unicode surrogate")
      else if 0xdc00 ≤ high ∧ high ≤ 0xdfff then
        .error (fault .eQuote "unpaired Unicode surrogate")
      else .ok (high, s)
  | _ => .error (fault .eQuote "invalid Unicode escape")

/-! ### The lexer -/

/-- The quoted-token loop after the opening quote (`policy.c:156-187`): the
decoded bytes and what follows the closing quote. `fuel` bounds the loop. -/
def lexQuoted : ℕ → Bytes → Except Fault (Bytes × Bytes)
  | 0, _ => .error (fault .eQuote "quoted token requires a closing quote and separator")
  | _, [] => .error (fault .eQuote "quoted token requires a closing quote and separator")
  | fuel + 1, c :: s =>
    if c = 34 then .ok ([], s)
    else if c < 32 then .error (fault .eQuote "control byte in quoted token")
    else if c ≠ 92 then (lexQuoted fuel s).map fun r => (c :: r.1, r.2)
    else match s with
      | [] => .error (fault .eQuote "unfinished escape")
      | e :: s =>
        match shortEscape e with
        | some b => (lexQuoted fuel s).map fun r => (b :: r.1, r.2)
        | none =>
          if e = 117 then
            match unicodeEscape s with
            | .error f => .error f
            | .ok (u, s) =>
              if u = 0 then .error (fault .eNul "decoded NUL is forbidden")
              else (lexQuoted fuel s).map fun r => (encode u ++ r.1, r.2)
          else .error (fault .eQuote "unknown JSON escape")

/-- The bare-token loop (`policy.c:190-195`). -/
def lexBare : Bytes → Except Fault (Bytes × Bytes)
  | [] => .ok ([], [])
  | c :: s =>
    if isBlank c then .ok ([], c :: s)
    else if c < 32 ∨ c = 127 ∨ c = 34 then .error (fault .eToken "invalid bare token")
    else (lexBare s).map fun r => (c :: r.1, r.2)

/-- The token loop of `lex` (`policy.c:143`); `count` tokens are already
taken, and `fuel` bounds the number of turns. -/
def lexLoop : ℕ → ℕ → Bytes → Except Fault (List Bytes)
  | 0, _, _ => .ok []
  | fuel + 1, count, s =>
    match s.dropWhile isBlank with
    | [] => .ok []
    | c :: s =>
      if c = 35 then .ok []
      else if count = 5 then .error (fault .eFields "too many fields")
      else if c = 34 then
        match lexQuoted (s.length + 1) s with
        | .error f => .error f
        | .ok (t, rest) =>
          if rest.head?.all isBlank then (lexLoop fuel (count + 1) rest).map (t :: ·)
          else .error (fault .eQuote "quoted token requires a closing quote and separator")
      else
        match lexBare (c :: s) with
        | .error f => .error f
        | .ok (t, rest) => (lexLoop fuel (count + 1) rest).map (t :: ·)

/-- `lex` (`policy.c:143`): the tokens of one line. -/
def lex (s : Bytes) : Except Fault (List Bytes) := lexLoop (s.length + 1) 0 s

/-- `jf_policy_tokens` (`policy.c:202`), the lexer as the profile reader calls it. -/
def policyTokens (s : Bytes) (line : ℕ) : Except Failure (List Bytes) :=
  if lineMax < s.length then
    .error ((fault .eLineLimit "profile line exceeds limit").fail (some 0) line)
  else if validUtf8 s then (lex s).mapError fun f => f.fail (some 0) line
  else .error ((fault .eUtf8 "invalid profile UTF8").fail (some 0) line)

/-! ### Decoded text -/

/-- The bytes `encode` writes, one table a form. -/
theorem utf8_table :
    (∀ m : Fin 64, isCont (UInt8.ofNat (0x80 ||| m.val)) = true ∧
      (UInt8.ofNat (0x80 ||| m.val)).toNat &&& 63 = m.val) ∧
    (∀ m : Fin 32, 2 ≤ m.val → 0xc2 ≤ UInt8.ofNat (0xc0 ||| m.val) ∧
      UInt8.ofNat (0xc0 ||| m.val) ≤ 0xdf ∧
      (UInt8.ofNat (0xc0 ||| m.val)).toNat &&& 31 = m.val) ∧
    (∀ m : Fin 16, 0xe0 ≤ UInt8.ofNat (0xe0 ||| m.val) ∧
      UInt8.ofNat (0xe0 ||| m.val) ≤ 0xef ∧
      (UInt8.ofNat (0xe0 ||| m.val)).toNat &&& 15 = m.val) ∧
    (∀ m : Fin 5, 0xf0 ≤ UInt8.ofNat (0xf0 ||| m.val) ∧
      UInt8.ofNat (0xf0 ||| m.val) ≤ 0xf4 ∧
      (UInt8.ofNat (0xf0 ||| m.val)).toNat &&& 7 = m.val) ∧
    ∀ m : Fin 128, m.val ≠ 0 → validUtf8 [UInt8.ofNat m.val] = true := by
  decide

/-- A continuation byte carries six bits. -/
theorem addCont_contByte (acc n : ℕ) :
    isCont (UInt8.ofNat (0x80 ||| (n &&& 63))) = true ∧
      addCont acc (UInt8.ofNat (0x80 ||| (n &&& 63))) = acc * 64 + n % 64 := by
  have hlt : n % 64 < 2 ^ 6 := Nat.mod_lt _ (by decide)
  have hmask : n &&& 63 = n % 64 := Nat.and_two_pow_sub_one_eq_mod n 6
  obtain ⟨hcont, hbits⟩ := utf8_table.1 ⟨n % 64, hlt⟩
  rw [hmask]
  refine ⟨hcont, ?_⟩
  rw [addCont, hbits, ← Nat.shiftLeft_add_eq_or_of_lt hlt, Nat.shiftLeft_eq]

theorem leadByte_two {n : ℕ} (h : 2 ≤ n) (hn : n < 32) :
    0xc2 ≤ UInt8.ofNat (0xc0 ||| n) ∧ UInt8.ofNat (0xc0 ||| n) ≤ 0xdf ∧
      (UInt8.ofNat (0xc0 ||| n)).toNat &&& 31 = n :=
  utf8_table.2.1 ⟨n, hn⟩ h

theorem leadByte_three {n : ℕ} (hn : n < 16) :
    0xe0 ≤ UInt8.ofNat (0xe0 ||| n) ∧ UInt8.ofNat (0xe0 ||| n) ≤ 0xef ∧
      (UInt8.ofNat (0xe0 ||| n)).toNat &&& 15 = n :=
  utf8_table.2.2.1 ⟨n, hn⟩

theorem leadByte_four {n : ℕ} (hn : n < 5) :
    0xf0 ≤ UInt8.ofNat (0xf0 ||| n) ∧ UInt8.ofNat (0xf0 ||| n) ≤ 0xf4 ∧
      (UInt8.ofNat (0xf0 ||| n)).toNat &&& 7 = n :=
  utf8_table.2.2.2.1 ⟨n, hn⟩

/-- A code point that is neither NUL, out of range nor a surrogate. -/
def isScalar (c : ℕ) : Prop := c ≠ 0 ∧ c < 0x110000 ∧ ¬ (0xd800 ≤ c ∧ c ≤ 0xdfff)

theorem scalarFrom_of_isScalar {min c : ℕ} (h : isScalar c) (hm : min ≤ c) :
    scalarFrom min c = true := by
  obtain ⟨_, h1, h2⟩ := h
  simp only [scalarFrom, Bool.not_eq_true', Bool.or_eq_false_iff, decide_eq_false_iff_not,
    Bool.and_eq_false_iff]
  omega

theorem validUtf8_encode {c : ℕ} (h : isScalar c) : validUtf8 (encode c) = true := by
  obtain ⟨h0, h1, h2⟩ := h
  have hs6 : c >>> 6 = c / 64 := Nat.shiftRight_eq_div_pow c 6
  have hs12 : c >>> 12 = c / 4096 := Nat.shiftRight_eq_div_pow c 12
  have hs18 : c >>> 18 = c / 262144 := Nat.shiftRight_eq_div_pow c 18
  unfold encode
  split
  · rename_i hlt
    exact utf8_table.2.2.2.2 ⟨c, hlt⟩ h0
  · split
    · rename_i hge hlt
      obtain ⟨hlo, hhi, hbits⟩ := leadByte_two (n := c >>> 6) (by omega) (by omega)
      obtain ⟨ha, hav⟩ := addCont_contByte (c >>> 6) c
      have hz : UInt8.ofNat (0xc0 ||| c >>> 6) ≠ 0 := by grind
      have hb : ¬ UInt8.ofNat (0xc0 ||| c >>> 6) < 128 := by grind
      rw [validUtf8_cons, if_neg hz, if_neg hb, if_pos ⟨hlo, hhi⟩]
      simp only [ha, hbits, hav, validUtf8, Bool.and_true, Bool.true_and]
      exact scalarFrom_of_isScalar (by simp only [isScalar]; omega) (by omega)
    · split
      · rename_i hge hlt
        obtain ⟨hlo, hhi, hbits⟩ := leadByte_three (n := c >>> 12) (by omega)
        obtain ⟨ha, hav⟩ := addCont_contByte (c >>> 12) (c >>> 6)
        obtain ⟨hb, hbv⟩ := addCont_contByte (c >>> 12 * 64 + c >>> 6 % 64) c
        have hz : UInt8.ofNat (0xe0 ||| c >>> 12) ≠ 0 := by grind
        have hn1 : ¬ UInt8.ofNat (0xe0 ||| c >>> 12) < 128 := by grind
        have hn2 : ¬ ((0xc2 : Byte) ≤ UInt8.ofNat (0xe0 ||| c >>> 12) ∧
          UInt8.ofNat (0xe0 ||| c >>> 12) ≤ 0xdf) := by grind
        rw [validUtf8_cons, if_neg hz, if_neg hn1, if_neg hn2, if_pos ⟨hlo, hhi⟩]
        simp only [ha, hb, hbits, hav, hbv, validUtf8, Bool.and_true, Bool.true_and]
        exact scalarFrom_of_isScalar (by simp only [isScalar]; omega) (by omega)
      · rename_i hge
        obtain ⟨hlo, hhi, hbits⟩ := leadByte_four (n := c >>> 18) (by omega)
        obtain ⟨ha, hav⟩ := addCont_contByte (c >>> 18) (c >>> 12)
        obtain ⟨hb, hbv⟩ := addCont_contByte (c >>> 18 * 64 + c >>> 12 % 64) (c >>> 6)
        obtain ⟨hd, hdv⟩ :=
          addCont_contByte ((c >>> 18 * 64 + c >>> 12 % 64) * 64 + c >>> 6 % 64) c
        have hz : UInt8.ofNat (0xf0 ||| c >>> 18) ≠ 0 := by grind
        have hn1 : ¬ UInt8.ofNat (0xf0 ||| c >>> 18) < 128 := by grind
        have hn2 : ¬ ((0xc2 : Byte) ≤ UInt8.ofNat (0xf0 ||| c >>> 18) ∧
          UInt8.ofNat (0xf0 ||| c >>> 18) ≤ 0xdf) := by grind
        have hn3 : ¬ ((0xe0 : Byte) ≤ UInt8.ofNat (0xf0 ||| c >>> 18) ∧
          UInt8.ofNat (0xf0 ||| c >>> 18) ≤ 0xef) := by grind
        rw [validUtf8_cons, if_neg hz, if_neg hn1, if_neg hn2, if_neg hn3, if_pos ⟨hlo, hhi⟩]
        simp only [ha, hb, hd, hbits, hav, hbv, hdv, validUtf8, Bool.and_true, Bool.true_and]
        exact scalarFrom_of_isScalar (by simp only [isScalar]; omega) (by omega)

theorem hexDigit_spec {c : Byte} {n : ℕ} (h : hexDigit c = some n) : n < 16 ∧ c < 128 ∧ c ≠ 0 := by
  simp only [hexDigit, UInt8.le_iff_toNat_le, UInt8.lt_iff_toNat_lt, ne_eq, UInt8.ext_iff] at h ⊢
  split_ifs at h <;> simp_all <;> omega

theorem hex4_spec {a b c d : Byte} {n : ℕ} (h : hex4 a b c d = some n) (s : Bytes) :
    n < 0x10000 ∧ validUtf8 (a :: b :: c :: d :: s) = validUtf8 s := by
  simp only [hex4, Option.bind_eq_bind, Option.bind_eq_some_iff, Option.pure_def,
    Option.some.injEq] at h
  obtain ⟨w, ha, x, hb, y, hc, z, hd, rfl⟩ := h
  obtain ⟨hw, ha1, ha2⟩ := hexDigit_spec ha
  obtain ⟨hx, hb1, hb2⟩ := hexDigit_spec hb
  obtain ⟨hy, hc1, hc2⟩ := hexDigit_spec hc
  obtain ⟨hz, hd1, hd2⟩ := hexDigit_spec hd
  have hor : ∀ {p q k : ℕ}, p < 2 ^ k → q < 16 → p <<< 4 ||| q < 2 ^ (k + 4) := by
    intro p q k hp hq
    rw [← Nat.shiftLeft_add_eq_or_of_lt (show q < 2 ^ 4 from hq), Nat.shiftLeft_eq, pow_add]
    omega
  refine ⟨?_, ?_⟩
  · exact hor (k := 12) (hor (k := 8) (hor (k := 4) hw hx) hy) hz
  · rw [validUtf8_cons_ascii ha1 ha2, validUtf8_cons_ascii hb1 hb2, validUtf8_cons_ascii hc1 hc2,
      validUtf8_cons_ascii hd1 hd2]

theorem encode_length (c : ℕ) : (encode c).length ≤ if c < 0x10000 then 3 else 4 := by
  unfold encode
  split_ifs <;> simp only [List.length_cons, List.length_nil] <;> omega

theorem unicodeEscape_spec {s rest : Bytes} {u : ℕ} (h : unicodeEscape s = .ok (u, rest)) :
    (u ≠ 0 → isScalar u) ∧ validUtf8 s = validUtf8 rest ∧
      (encode u).length + rest.length ≤ s.length := by
  have hback : (92 : Byte) < 128 ∧ (92 : Byte) ≠ 0 := by decide
  have hu : (117 : Byte) < 128 ∧ (117 : Byte) ≠ 0 := by decide
  unfold unicodeEscape at h
  split at h
  case h_2 => cases h
  case h_1 a b c d t =>
    split at h
    · cases h
    · rename_i high hhigh
      obtain ⟨hlt, hutf⟩ := hex4_spec hhigh t
      split at h
      · rename_i hsur
        split at h
        case h_2 => cases h
        case h_1 e f g i t' =>
          split at h
          case h_2 => cases h
          case h_1 low hlow =>
            obtain ⟨_, hutf'⟩ := hex4_spec hlow t'
            split at h
            · rename_i hlo
              simp only [Except.ok.injEq, Prod.mk.injEq, Nat.shiftLeft_eq] at h
              obtain ⟨hval, rfl⟩ := h
              have hen := encode_length u
              rw [if_neg (by omega)] at hen
              refine ⟨fun _ => ⟨by omega, by omega, by omega⟩, ?_, ?_⟩
              · rw [hutf, validUtf8_cons_ascii hback.1 hback.2, validUtf8_cons_ascii hu.1 hu.2, hutf']
              · simp only [List.length_cons]
                omega
            · cases h
      · split at h
        · cases h
        · simp only [Except.ok.injEq, Prod.mk.injEq] at h
          obtain ⟨rfl, rfl⟩ := h
          have hen := encode_length high
          rw [if_pos hlt] at hen
          refine ⟨fun h0 => ⟨h0, by omega, by omega⟩, hutf, ?_⟩
          simp only [List.length_cons]
          omega

theorem shortEscape_spec {e b : Byte} (h : shortEscape e = some b) :
    e < 128 ∧ e ≠ 0 ∧ b < 128 ∧ b ≠ 0 := by
  unfold shortEscape at h
  grind

/-- A decoded token is text again, and so is what follows it. The bytes `pre`
already copied may end inside a character. -/
theorem lexQuoted_spec {fuel : ℕ} {s t rest : Bytes} (pre : Bytes) (h : lexQuoted fuel s = .ok (t, rest))
    (hp : validUtf8 (pre ++ s) = true) :
    validUtf8 (pre ++ t) = true ∧ validUtf8 rest = true ∧ t.length + rest.length < s.length := by
  induction fuel generalizing s pre t rest with
  | zero => simp [lexQuoted] at h
  | succ fuel ih =>
    cases s with
    | nil => simp [lexQuoted] at h
    | cons c s =>
      simp only [lexQuoted] at h
      split at h
      · rename_i hc
        cases h
        subst hc
        obtain ⟨h1, h2⟩ := (validUtf8_append_ascii (by decide) (by decide) _ _).mp hp
        exact ⟨by simpa using h1, h2, by simp⟩
      · split at h
        · cases h
        · split at h
          · obtain ⟨r, hr, he⟩ := map_eq_ok_iff.mp h
            cases he
            obtain ⟨h1, h2, h3⟩ := ih (pre ++ [c]) hr (by simpa using hp)
            refine ⟨by simpa using h1, h2, ?_⟩
            simp only [List.length_cons]
            omega
          · rename_i hc
            have hc : c = 92 := by simpa using hc
            subst hc
            obtain ⟨h1, h2⟩ := (validUtf8_append_ascii (by decide) (by decide) _ _).mp hp
            split at h
            · cases h
            · rename_i e s
              split at h
              · rename_i b hb
                obtain ⟨r, hr, he⟩ := map_eq_ok_iff.mp h
                cases he
                obtain ⟨he1, he2, hb1, hb2⟩ := shortEscape_spec hb
                rw [validUtf8_cons_ascii he1 he2] at h2
                obtain ⟨h3, h4, h5⟩ := ih [] hr h2
                refine ⟨?_, h4, ?_⟩
                · rw [validUtf8_append _ h1, validUtf8_cons_ascii hb1 hb2]
                  exact h3
                · simp only [List.length_cons]
                  omega
              · split at h
                · rename_i he
                  subst he
                  rw [validUtf8_cons_ascii (by decide) (by decide)] at h2
                  split at h
                  · cases h
                  · rename_i u s' hu
                    obtain ⟨hscalar, hutf, hlen⟩ := unicodeEscape_spec hu
                    split at h
                    · cases h
                    · rename_i h0
                      obtain ⟨r, hr, he⟩ := map_eq_ok_iff.mp h
                      cases he
                      obtain ⟨h3, h4, h5⟩ := ih [] hr (by rw [List.nil_append, ← hutf]; exact h2)
                      refine ⟨?_, h4, ?_⟩
                      · rw [validUtf8_append _ h1, validUtf8_append _ (validUtf8_encode (hscalar h0))]
                        exact h3
                      · simp only [List.length_cons, List.length_append]
                        omega
                · cases h

theorem lexBare_spec {s t rest : Bytes} (h : lexBare s = .ok (t, rest)) :
    s = t ++ rest ∧ (∀ c ∈ t, isControl c = false ∧ isBlank c = false ∧ c ≠ 34) ∧
      rest.head?.all isBlank = true := by
  induction s generalizing t rest with
  | nil =>
    simp only [lexBare, Except.ok.injEq, Prod.mk.injEq] at h
    obtain ⟨rfl, rfl⟩ := h
    simp
  | cons c s ih =>
    simp only [lexBare] at h
    split at h
    · rename_i hb
      simp only [Except.ok.injEq, Prod.mk.injEq] at h
      obtain ⟨rfl, rfl⟩ := h
      simp [hb]
    · split at h
      · cases h
      · rename_i hb hc
        obtain ⟨r, hr, he⟩ := map_eq_ok_iff.mp h
        simp only [Prod.mk.injEq] at he
        obtain ⟨rfl, rfl⟩ := he
        obtain ⟨h1, h2, h3⟩ := ih hr
        refine ⟨by rw [h1]; rfl, ?_, h3⟩
        intro d hd
        rcases List.mem_cons.mp hd with rfl | hd
        · simp only [isControl, Bool.or_eq_false_iff, decide_eq_false_iff_not, beq_eq_false_iff_ne]
          exact ⟨⟨fun hlt => hc (Or.inl hlt), fun he => hc (Or.inr (Or.inl he))⟩, by simpa using hb,
            fun he => hc (Or.inr (Or.inr he))⟩
        · exact h2 d hd

theorem isBlank_ascii {c : Byte} (h : isBlank c = true) : c < 128 ∧ c ≠ 0 := by
  simp only [isBlank, Bool.or_eq_true, beq_iff_eq] at h
  rcases h with rfl | rfl
  · exact ⟨by decide, by decide⟩
  · exact ⟨by decide, by decide⟩

/-- The text before a blank or the end is complete. -/
theorem validUtf8_of_append_blank {t rest : Bytes} (h : validUtf8 (t ++ rest) = true)
    (hr : rest.head?.all isBlank = true) : validUtf8 t = true ∧ validUtf8 rest = true := by
  cases rest with
  | nil => simpa [validUtf8] using h
  | cons c rest =>
    have hc : c < 128 ∧ c ≠ 0 := isBlank_ascii (by simpa using hr)
    have hsplit := (validUtf8_append_ascii hc.1 hc.2 t rest).mp h
    exact ⟨hsplit.1, by rw [validUtf8_cons_ascii hc.1 hc.2]; exact hsplit.2⟩

theorem validUtf8_dropWhile_blank {s : Bytes} (h : validUtf8 s = true) :
    validUtf8 (s.dropWhile isBlank) = true := by
  induction s with
  | nil => rfl
  | cons c s ih =>
    by_cases hc : isBlank c = true
    · rw [List.dropWhile_cons_of_pos hc]
      have hc := isBlank_ascii hc
      rw [validUtf8_cons_ascii hc.1 hc.2] at h
      exact ih h
    · rw [List.dropWhile_cons_of_neg hc]
      exact h

/-- Every token of a valid line is valid text and no longer than the line. -/
theorem lexLoop_spec {fuel count : ℕ} {s : Bytes} {ts : List Bytes}
    (h : lexLoop fuel count s = .ok ts) (hs : validUtf8 s = true) :
    ∀ t ∈ ts, validUtf8 t = true ∧ t.length ≤ s.length := by
  induction fuel generalizing count s ts with
  | zero =>
    simp only [lexLoop, Except.ok.injEq] at h
    subst h
    simp
  | succ fuel ih =>
    simp only [lexLoop] at h
    have hd := validUtf8_dropWhile_blank hs
    have hle : (s.dropWhile isBlank).length ≤ s.length := (List.dropWhile_suffix _).length_le
    split at h
    · cases h
      simp
    · rename_i c s' hcs
      rw [hcs] at hd hle
      simp only [List.length_cons] at hle
      split at h
      · cases h
        simp
      · split at h
        · cases h
        · split at h
          · rename_i hc
            subst hc
            rw [validUtf8_cons_ascii (by decide) (by decide)] at hd
            split at h
            · cases h
            · rename_i t rest hq
              obtain ⟨h1, h2, h3⟩ := lexQuoted_spec [] hq hd
              split at h
              · obtain ⟨ts', hts, he⟩ := map_eq_ok_iff.mp h
                subst he
                intro x hx
                rcases List.mem_cons.mp hx with rfl | hx
                · exact ⟨h1, by omega⟩
                · obtain ⟨h4, h5⟩ := ih hts h2 x hx
                  exact ⟨h4, by omega⟩
              · cases h
          · split at h
            · cases h
            · rename_i t rest hq
              obtain ⟨h1, _, h3⟩ := lexBare_spec hq
              rw [h1] at hd
              obtain ⟨h4, h5⟩ := validUtf8_of_append_blank hd h3
              have hlen : s'.length + 1 = t.length + rest.length := by
                rw [← List.length_append, ← h1, List.length_cons]
              obtain ⟨ts', hts, he⟩ := map_eq_ok_iff.mp h
              subst he
              intro x hx
              rcases List.mem_cons.mp hx with rfl | hx
              · exact ⟨h4, by omega⟩
              · obtain ⟨h6, h7⟩ := ih hts h5 x hx
                exact ⟨h6, by omega⟩

theorem lex_spec {s : Bytes} {ts : List Bytes} (h : lex s = .ok ts) (hs : validUtf8 s = true) :
    ∀ t ∈ ts, validUtf8 t = true ∧ t.length ≤ s.length :=
  lexLoop_spec h hs

end JaroFilter
