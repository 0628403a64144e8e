import JaroFilter.Lib.Buffer
import JaroFilter.Policy.Text

/-!
# The grammar of a policy line

What a line of blank-separated tokens is, apart from how `lex` reads it: bare
runs, JSON strings and comments, each token with the text it stands for. `lex`
accepts exactly these lines, and what it writes to its buffer is bounded by
the line.
-/

namespace JaroFilter

open Lib

/-! ### Text as characters -/

def utf8 (l : List Char) : Bytes := l.flatMap String.utf8EncodeChar

/-- NUL-free well-formed UTF-8. -/
def IsText (s : Bytes) : Prop := ∃ l : List Char, '\x00' ∉ l ∧ s = utf8 l

theorem or_of_lt {k low : ℕ} (high i : ℕ) (hk : high = 2 ^ i * k) (hlow : low < 2 ^ i) :
    high ||| low = low + high := by
  rw [hk, Nat.mul_comm, ← Nat.shiftLeft_eq, ← Nat.shiftLeft_add_eq_or_of_lt hlow, Nat.add_comm]

theorem contByte_eq (n : ℕ) : 0x80 ||| (n &&& 63) = n % 64 + 0x80 := by
  rw [show n &&& 63 = n % 64 from Nat.and_two_pow_sub_one_eq_mod n 6]
  exact or_of_lt (k := 1) 0x80 7 rfl (by omega)

/-- The lexer's encoder is the encoding of the character. -/
theorem encode_toNat (c : Char) : encode c.toNat = String.utf8EncodeChar c := by
  have hmax : c.toNat < 0x110000 := by
    rcases c.valid with h | ⟨_, h⟩
    · have : c.toNat < 0xd800 := h
      omega
    · exact h
  have hval : c.val.toNat = c.toNat := rfl
  have hs6 : c.toNat >>> 6 = c.toNat / 64 := Nat.shiftRight_eq_div_pow _ 6
  have hs12 : c.toNat >>> 12 = c.toNat / 4096 := Nat.shiftRight_eq_div_pow _ 12
  have hs18 : c.toNat >>> 18 = c.toNat / 262144 := Nat.shiftRight_eq_div_pow _ 18
  simp only [encode, String.utf8EncodeChar, hval, contByte_eq, hs6, hs12, hs18]
  by_cases h1 : c.toNat < 0x80
  · rw [if_pos h1, if_pos (show c.toNat ≤ 0x7f by omega)]
  · rw [if_neg h1, if_neg (show ¬ c.toNat ≤ 0x7f by omega)]
    by_cases h2 : c.toNat < 0x800
    · rw [if_pos h2, if_pos (show c.toNat ≤ 0x7ff by omega), or_of_lt (k := 6) 0xc0 5 rfl (by omega),
        Nat.mod_eq_of_lt (a := c.toNat / 64) (by omega)]
    · rw [if_neg h2, if_neg (show ¬ c.toNat ≤ 0x7ff by omega)]
      by_cases h3 : c.toNat < 0x10000
      · rw [if_pos h3, if_pos (show c.toNat ≤ 0xffff by omega),
          or_of_lt (k := 14) 0xe0 4 rfl (by omega), Nat.mod_eq_of_lt (a := c.toNat / 4096) (by omega)]
      · rw [if_neg h3, if_neg (show ¬ c.toNat ≤ 0xffff by omega),
          or_of_lt (k := 30) 0xf0 3 rfl (by omega), Nat.mod_eq_of_lt (a := c.toNat / 262144) (by omega)]

theorem isScalar_toNat {c : Char} (h : c ≠ '\x00') : isScalar c.toNat := by
  refine ⟨fun h0 => h (Char.toNat_inj.mp h0), ?_, ?_⟩
  · rcases c.valid with hv | ⟨_, hv⟩
    · have : c.toNat < 0xd800 := hv
      omega
    · exact hv
  · rcases c.valid with hv | ⟨hv, _⟩
    · have : c.toNat < 0xd800 := hv
      omega
    · have : 0xdfff < c.toNat := hv
      omega

/-- Every scalar is a character's. -/
theorem exists_char {n : ℕ} (h : isScalar n) : ∃ c : Char, c ≠ '\x00' ∧ c.toNat = n := by
  obtain ⟨h0, h1, h2⟩ := h
  have hv : n.isValidChar := by
    simp only [Nat.isValidChar]
    omega
  have hn : (Char.ofNat n).toNat = n := by rw [Char.toNat_ofNat, if_pos hv]
  refine ⟨Char.ofNat n, fun he => ?_, hn⟩
  rw [he] at hn
  exact h0 hn.symm

/-- Lead and continuation bytes are their marks over the bits they carry. -/
theorem sequence_table :
    (∀ c : Byte, isCont c = true → UInt8.ofNat (0x80 ||| (c.toNat &&& 63)) = c ∧ c.toNat &&& 63 < 64) ∧
    (∀ c : Byte, 0xc2 ≤ c ∧ c ≤ 0xdf → UInt8.ofNat (0xc0 ||| (c.toNat &&& 31)) = c ∧
      c.toNat &&& 31 < 32) ∧
    (∀ c : Byte, 0xe0 ≤ c ∧ c ≤ 0xef → UInt8.ofNat (0xe0 ||| (c.toNat &&& 15)) = c ∧
      c.toNat &&& 15 < 16) ∧
    (∀ c : Byte, 0xf0 ≤ c ∧ c ≤ 0xf4 → UInt8.ofNat (0xf0 ||| (c.toNat &&& 7)) = c ∧
      c.toNat &&& 7 < 8) := by
  decide +kernel

theorem addCont_eq (acc : ℕ) {c : Byte} (h : isCont c = true) :
    addCont acc c = acc * 64 + (c.toNat &&& 63) := by
  have hlt : c.toNat &&& 63 < 2 ^ 6 := (sequence_table.1 c h).2
  rw [addCont, ← Nat.shiftLeft_add_eq_or_of_lt hlt, Nat.shiftLeft_eq]

/-- The last byte of a sequence is read back off the number it was added to. -/
theorem contByte_addCont (acc : ℕ) {c : Byte} (h : isCont c = true) :
    UInt8.ofNat (0x80 ||| (addCont acc c &&& 63)) = c ∧ addCont acc c >>> 6 = acc := by
  obtain ⟨hc, hlt⟩ := sequence_table.1 c h
  have hmask : addCont acc c &&& 63 = c.toNat &&& 63 := by
    rw [show addCont acc c &&& 63 = addCont acc c % 64 from Nat.and_two_pow_sub_one_eq_mod _ 6,
      addCont_eq acc h]
    omega
  refine ⟨by rw [hmask]; exact hc, ?_⟩
  rw [Nat.shiftRight_eq_div_pow, addCont_eq acc h]
  omega

theorem isScalar_of_scalarFrom {min c : ℕ} (hmin : 0 < min) (h : scalarFrom min c = true) :
    isScalar c ∧ min ≤ c := by
  simp only [scalarFrom, Bool.not_eq_true', Bool.or_eq_false_iff, decide_eq_false_iff_not,
    Bool.and_eq_false_iff] at h
  refine ⟨⟨?_, ?_, ?_⟩, ?_⟩ <;> omega

theorem encode_two {c a : Byte} (hc : 0xc2 ≤ c ∧ c ≤ 0xdf) (ha : isCont a = true)
    (h : scalarFrom 0x80 (addCont (c.toNat &&& 31) a) = true) :
    encode (addCont (c.toNat &&& 31) a) = [c, a] := by
  obtain ⟨hc, hlt⟩ := sequence_table.2.1 c hc
  obtain ⟨hb, hs⟩ := contByte_addCont (c.toNat &&& 31) ha
  have hge := (isScalar_of_scalarFrom (by omega) h).2
  have hmax : addCont (c.toNat &&& 31) a < 0x800 := by
    rw [Nat.shiftRight_eq_div_pow] at hs
    omega
  rw [encode, if_neg (by omega), if_pos hmax, hb, hs, hc]

theorem encode_three {c a b : Byte} (hc : 0xe0 ≤ c ∧ c ≤ 0xef) (ha : isCont a = true)
    (hb : isCont b = true)
    (h : scalarFrom 0x800 (addCont (addCont (c.toNat &&& 15) a) b) = true) :
    encode (addCont (addCont (c.toNat &&& 15) a) b) = [c, a, b] := by
  obtain ⟨hc, hlt⟩ := sequence_table.2.2.1 c hc
  obtain ⟨ha, hsa⟩ := contByte_addCont (c.toNat &&& 15) ha
  obtain ⟨hb, hsb⟩ := contByte_addCont (addCont (c.toNat &&& 15) a) hb
  have hge := (isScalar_of_scalarFrom (by omega) h).2
  have hs : addCont (addCont (c.toNat &&& 15) a) b >>> 12 = c.toNat &&& 15 := by
    rw [show 12 = 6 + 6 from rfl, Nat.shiftRight_add, hsb, hsa]
  have hmax : addCont (addCont (c.toNat &&& 15) a) b < 0x10000 := by
    rw [Nat.shiftRight_eq_div_pow] at hs
    omega
  rw [encode, if_neg (by omega), if_neg (by omega), if_pos hmax, hb, hsb, ha, hs, hc]

theorem encode_four {c a b d : Byte} (hc : 0xf0 ≤ c ∧ c ≤ 0xf4) (ha : isCont a = true)
    (hb : isCont b = true) (hd : isCont d = true)
    (h : scalarFrom 0x10000 (addCont (addCont (addCont (c.toNat &&& 7) a) b) d) = true) :
    encode (addCont (addCont (addCont (c.toNat &&& 7) a) b) d) = [c, a, b, d] := by
  obtain ⟨hc, hlt⟩ := sequence_table.2.2.2 c hc
  obtain ⟨ha, hsa⟩ := contByte_addCont (c.toNat &&& 7) ha
  obtain ⟨hb, hsb⟩ := contByte_addCont (addCont (c.toNat &&& 7) a) hb
  obtain ⟨hd, hsd⟩ := contByte_addCont (addCont (addCont (c.toNat &&& 7) a) b) hd
  have hge := (isScalar_of_scalarFrom (by omega) h).2
  have hs12 : addCont (addCont (addCont (c.toNat &&& 7) a) b) d >>> 12 = addCont (c.toNat &&& 7) a := by
    rw [show 12 = 6 + 6 from rfl, Nat.shiftRight_add, hsd, hsb]
  have hs18 : addCont (addCont (addCont (c.toNat &&& 7) a) b) d >>> 18 = c.toNat &&& 7 := by
    rw [show 18 = 12 + 6 from rfl, Nat.shiftRight_add, hs12, hsa]
  rw [encode, if_neg (by omega), if_neg (by omega), if_neg (by omega), hd, hsd, hb, hs12, ha, hs18,
    hc]

theorem isText_nil : IsText [] := ⟨[], by simp, rfl⟩

theorem isText_append {s t : Bytes} (hs : IsText s) (ht : IsText t) : IsText (s ++ t) := by
  obtain ⟨l, hl, rfl⟩ := hs
  obtain ⟨m, hm, rfl⟩ := ht
  refine ⟨l ++ m, ?_, List.flatMap_append.symm⟩
  rw [List.mem_append]
  exact fun h => h.elim hl hm

theorem isText_encode {n : ℕ} (h : isScalar n) : IsText (encode n) := by
  obtain ⟨c, hc, rfl⟩ := exists_char h
  refine ⟨[c], fun hm => hc (List.mem_singleton.mp hm).symm, ?_⟩
  rw [encode_toNat, utf8, List.flatMap_singleton]

theorem isText_of_validUtf8 {s : Bytes} (h : validUtf8 s = true) : IsText s := by
  fun_induction validUtf8 s with
  | case1 => exact isText_nil
  | case2 s => exact absurd h (by simp)
  | case3 c s h0 h1 ih =>
    have hlt : c.toNat < 128 := h1
    have hn : isScalar c.toNat := ⟨fun he => h0 (UInt8.toNat_inj.mp he), by omega, by omega⟩
    have henc : encode c.toNat = [c] := by
      rw [encode, if_pos hlt, UInt8.ofNat_toNat]
    have htext := isText_append (isText_encode hn) (ih h)
    rwa [henc] at htext
  | case4 c h0 h1 h2 a s ih =>
    simp only [Bool.and_eq_true] at h
    obtain ⟨⟨ha, hs⟩, hrest⟩ := h
    have htext := isText_append (isText_encode (isScalar_of_scalarFrom (by omega) hs).1) (ih hrest)
    rwa [encode_two h2 ha hs] at htext
  | case5 => exact absurd h (by simp)
  | case6 c h0 h1 h2 h3 a b s ih =>
    simp only [Bool.and_eq_true] at h
    obtain ⟨⟨⟨ha, hb⟩, hs⟩, hrest⟩ := h
    have htext := isText_append (isText_encode (isScalar_of_scalarFrom (by omega) hs).1) (ih hrest)
    rwa [encode_three h3 ha hb hs] at htext
  | case7 => exact absurd h (by simp)
  | case8 c h0 h1 h2 h3 h4 a b d s ih =>
    simp only [Bool.and_eq_true] at h
    obtain ⟨⟨⟨⟨ha, hb⟩, hd⟩, hs⟩, hrest⟩ := h
    have htext := isText_append (isText_encode (isScalar_of_scalarFrom (by omega) hs).1) (ih hrest)
    rwa [encode_four h4 ha hb hd hs] at htext
  | case9 => exact absurd h (by simp)
  | case10 => exact absurd h (by simp)

/-- `jf_valid_utf8` accepts exactly the encodings of characters without NUL. -/
theorem validUtf8_iff {s : Bytes} : validUtf8 s = true ↔ IsText s := by
  constructor
  · exact isText_of_validUtf8
  · intro h
    obtain ⟨l, hl, rfl⟩ := h
    induction l with
    | nil => rfl
    | cons c l ih =>
      have hc : isScalar c.toNat := isScalar_toNat fun he => hl (by simp [he])
      have hchar : validUtf8 (String.utf8EncodeChar c) = true := by
        rw [← encode_toNat]
        exact validUtf8_encode hc
      rw [utf8, List.flatMap_cons, validUtf8_append _ hchar]
      exact ih fun hm => hl (List.mem_cons_of_mem _ hm)

/-! ### JSON strings -/

inductive HexDigit : Byte → ℕ → Prop
  | digit {n : ℕ} (h : n < 10) : HexDigit (UInt8.ofNat (48 + n)) n
  | lower {n : ℕ} (h : n < 6) : HexDigit (UInt8.ofNat (97 + n)) (10 + n)
  | upper {n : ℕ} (h : n < 6) : HexDigit (UInt8.ofNat (65 + n)) (10 + n)

/-- Four hexadecimal digits and the UTF-16 code unit they name. -/
inductive CodeUnit : Bytes → ℕ → Prop
  | digits {a b c d : Byte} {w x y z : ℕ} (ha : HexDigit a w) (hb : HexDigit b x)
      (hc : HexDigit c y) (hd : HexDigit d z) :
      CodeUnit [a, b, c, d] (((w * 16 + x) * 16 + y) * 16 + z)

/-- What may follow a backslash, and the character it stands for. A character
outside the basic plane is spelled by its surrogate pair. -/
inductive Escape : Bytes → Char → Prop
  | quote : Escape [34] '"'
  | backslash : Escape [92] '\\'
  | slash : Escape [47] '/'
  | backspace : Escape [98] '\x08'
  | formFeed : Escape [102] '\x0c'
  | lineFeed : Escape [110] '\n'
  | carriageReturn : Escape [114] '\r'
  | tab : Escape [116] '\t'
  | unit {u : Bytes} {c : Char} (hu : CodeUnit u c.toNat) : Escape (117 :: u) c
  | pair {high low : Bytes} {m n : ℕ} {c : Char} (hm : m < 0x400) (hn : n < 0x400)
      (hhigh : CodeUnit high (0xd800 + m)) (hlow : CodeUnit low (0xdc00 + n))
      (hc : c.toNat = 0x10000 + m * 0x400 + n) : Escape (117 :: high ++ 92 :: 117 :: low) c

/-- The text between the quotes of a JSON string and the bytes it decodes to:
raw bytes from 32 on other than quote and backslash, and escapes of characters
other than NUL. -/
inductive Quoted : Bytes → Bytes → Prop
  | nil : Quoted [] []
  | raw {c : Byte} {s t : Bytes} (h32 : 32 ≤ c) (hq : c ≠ 34) (hb : c ≠ 92) (h : Quoted s t) :
      Quoted (c :: s) (c :: t)
  | escape {e s t : Bytes} {c : Char} (he : Escape e c) (hc : c ≠ '\x00') (h : Quoted s t) :
      Quoted (92 :: e ++ s) (String.utf8EncodeChar c ++ t)

theorem hexDigit_iff {c : Byte} {n : ℕ} : hexDigit c = some n ↔ HexDigit c n := by
  have htable : (∀ n : Fin 10, hexDigit (UInt8.ofNat (48 + n.val)) = some n.val) ∧
      (∀ n : Fin 6, hexDigit (UInt8.ofNat (97 + n.val)) = some (10 + n.val)) ∧
      ∀ n : Fin 6, hexDigit (UInt8.ofNat (65 + n.val)) = some (10 + n.val) := by
    decide
  constructor
  · intro h
    unfold hexDigit at h
    split at h
    · rename_i hc
      have hlo : 48 ≤ c.toNat := hc.1
      have hhi : c.toNat ≤ 57 := hc.2
      obtain rfl : c.toNat - 48 = n := by simpa using h
      have hd := HexDigit.digit (n := c.toNat - 48) (by omega)
      rwa [show 48 + (c.toNat - 48) = c.toNat by omega, UInt8.ofNat_toNat] at hd
    · split at h
      · rename_i hc
        have hlo : 97 ≤ c.toNat := hc.1
        have hhi : c.toNat ≤ 102 := hc.2
        obtain rfl : c.toNat - 97 + 10 = n := by simpa using h
        have hd := HexDigit.lower (n := c.toNat - 97) (by omega)
        rwa [show 97 + (c.toNat - 97) = c.toNat by omega, UInt8.ofNat_toNat, Nat.add_comm] at hd
      · split at h
        · rename_i hc
          have hlo : 65 ≤ c.toNat := hc.1
          have hhi : c.toNat ≤ 70 := hc.2
          obtain rfl : c.toNat - 65 + 10 = n := by simpa using h
          have hd := HexDigit.upper (n := c.toNat - 65) (by omega)
          rwa [show 65 + (c.toNat - 65) = c.toNat by omega, UInt8.ofNat_toNat, Nat.add_comm] at hd
        · cases h
  · intro h
    cases h with
    | digit h => exact htable.1 ⟨_, h⟩
    | lower h => exact htable.2.1 ⟨_, h⟩
    | upper h => exact htable.2.2 ⟨_, h⟩

theorem hex4_iff {a b c d : Byte} {n : ℕ} : hex4 a b c d = some n ↔ CodeUnit [a, b, c, d] n := by
  have hor : ∀ {p q : ℕ}, q < 16 → p <<< 4 ||| q = p * 16 + q := by
    intro p q hq
    rw [← Nat.shiftLeft_add_eq_or_of_lt (show q < 2 ^ 4 from hq), Nat.shiftLeft_eq]
  constructor
  · intro h
    simp only [hex4, Option.bind_eq_bind, Option.bind_eq_some_iff, Option.pure_def,
      Option.some.injEq] at h
    obtain ⟨w, ha, x, hb, y, hc, z, hd, rfl⟩ := h
    rw [hor (hexDigit_spec hb).1, hor (hexDigit_spec hc).1, hor (hexDigit_spec hd).1]
    exact .digits (hexDigit_iff.mp ha) (hexDigit_iff.mp hb) (hexDigit_iff.mp hc) (hexDigit_iff.mp hd)
  · intro h
    cases h with
    | digits ha hb hc hd =>
      have ha := hexDigit_iff.mpr ha
      have hb := hexDigit_iff.mpr hb
      have hc := hexDigit_iff.mpr hc
      have hd := hexDigit_iff.mpr hd
      simp only [hex4, ha, hb, hc, hd, Option.bind_eq_bind, Option.bind_some, Option.pure_def,
        hor (hexDigit_spec hb).1, hor (hexDigit_spec hc).1, hor (hexDigit_spec hd).1]

theorem CodeUnit.hex4 {u : Bytes} {n : ℕ} (h : CodeUnit u n) :
    ∃ a b c d, u = [a, b, c, d] ∧ hex4 a b c d = some n := by
  cases h with
  | digits ha hb hc hd => exact ⟨_, _, _, _, rfl, hex4_iff.mpr (.digits ha hb hc hd)⟩

/-- The one-letter escapes, as a table. -/
theorem shortEscape_iff {e b : Byte} : shortEscape e = some b ↔
    ∃ c : Char, c ≠ '\x00' ∧ Escape [e] c ∧ String.utf8EncodeChar c = [b] := by
  constructor
  · intro h
    unfold shortEscape at h
    split at h
    · rename_i he
      obtain rfl : e = b := by simpa using h
      rcases he with rfl | rfl | rfl
      · exact ⟨'"', by decide, .quote, rfl⟩
      · exact ⟨'\\', by decide, .backslash, rfl⟩
      · exact ⟨'/', by decide, .slash, rfl⟩
    · split_ifs at h with h1 h2 h3 h4 h5
      · obtain rfl : (8 : Byte) = b := by simpa using h
        subst h1
        exact ⟨'\x08', by decide, .backspace, rfl⟩
      · obtain rfl : (12 : Byte) = b := by simpa using h
        subst h2
        exact ⟨'\x0c', by decide, .formFeed, rfl⟩
      · obtain rfl : (10 : Byte) = b := by simpa using h
        subst h3
        exact ⟨'\n', by decide, .lineFeed, rfl⟩
      · obtain rfl : (13 : Byte) = b := by simpa using h
        subst h4
        exact ⟨'\r', by decide, .carriageReturn, rfl⟩
      · obtain rfl : (9 : Byte) = b := by simpa using h
        subst h5
        exact ⟨'\t', by decide, .tab, rfl⟩
  · intro h
    obtain ⟨c, -, he, hb⟩ := h
    generalize hs : [e] = s at he
    cases he with
    | unit hu =>
      cases hs
      cases hu
    | pair => simp at hs
    | _ =>
      cases hs
      cases hb
      rfl

/-- A Unicode escape names a character, or the NUL that is refused next. -/
theorem unicodeEscape_iff {s rest : Bytes} {u : ℕ} : unicodeEscape s = .ok (u, rest) ↔
    ∃ (e : Bytes) (c : Char), Escape (117 :: e) c ∧ s = e ++ rest ∧ c.toNat = u := by
  constructor
  · intro h
    unfold unicodeEscape at h
    split at h
    case h_2 => cases h
    case h_1 a b c d t =>
      split at h
      · cases h
      · rename_i high hhigh
        have hunit := hex4_iff.mp hhigh
        have hlt := (hex4_spec hhigh t).1
        split at h
        · rename_i hsur
          split at h
          case h_2 => cases h
          case h_1 e f g i t' =>
            split at h
            case h_2 => cases h
            case h_1 low hlow =>
              split at h
              · rename_i hlo
                simp only [Except.ok.injEq, Prod.mk.injEq, Nat.shiftLeft_eq] at h
                obtain ⟨hval, rfl⟩ := h
                obtain ⟨ch, -, hch⟩ := exists_char (n := u) ⟨by omega, by omega, by omega⟩
                have hhi : CodeUnit [a, b, c, d] (0xd800 + (high - 0xd800)) := by
                  rwa [show 0xd800 + (high - 0xd800) = high by omega]
                have hlo' : CodeUnit [e, f, g, i] (0xdc00 + (low - 0xdc00)) := by
                  rw [show 0xdc00 + (low - 0xdc00) = low by omega]
                  exact hex4_iff.mp hlow
                refine ⟨[a, b, c, d] ++ 92 :: 117 :: [e, f, g, i], ch, ?_, rfl, hch⟩
                exact .pair (by omega) (by omega) hhi hlo' (by omega)
              · cases h
        · split at h
          · cases h
          · simp only [Except.ok.injEq, Prod.mk.injEq] at h
            obtain ⟨rfl, rfl⟩ := h
            by_cases h0 : high = 0
            · subst h0
              exact ⟨[a, b, c, d], '\x00', .unit hunit, rfl, rfl⟩
            · obtain ⟨ch, -, hch⟩ := exists_char (n := high) ⟨h0, by omega, by omega⟩
              refine ⟨[a, b, c, d], ch, .unit ?_, rfl, hch⟩
              rwa [hch]
  · intro h
    obtain ⟨e, c, he, rfl, rfl⟩ := h
    generalize hs : (117 : Byte) :: e = s at he
    cases he with
    | unit hu =>
      cases hs
      have hscalar : ¬ (0xd800 ≤ c.toNat ∧ c.toNat ≤ 0xdfff) := by
        by_cases h0 : c = '\x00'
        · subst h0
          decide
        · exact (isScalar_toNat h0).2.2
      obtain ⟨a, b, d, f, rfl, hhex⟩ := hu.hex4
      simp only [List.cons_append, List.nil_append, unicodeEscape, hhex]
      rw [if_neg (by omega), if_neg (by omega)]
    | pair hm hn hhigh hlow hc =>
      rw [List.cons_append] at hs
      obtain ⟨-, rfl⟩ := List.cons.inj hs
      obtain ⟨a, b, d, f, rfl, hhex⟩ := hhigh.hex4
      obtain ⟨a', b', d', f', rfl, hhex'⟩ := hlow.hex4
      simp only [List.cons_append, List.nil_append, unicodeEscape, hhex, hhex', Nat.shiftLeft_eq]
      rw [if_pos (by omega), if_pos (by omega), hc]
      refine congrArg Except.ok (Prod.ext ?_ rfl)
      simp only
      omega
    | _ => cases hs

theorem Escape.forms {e : Bytes} {c : Char} (h : Escape e c) :
    (∃ x b, e = [x] ∧ shortEscape x = some b ∧ String.utf8EncodeChar c = [b]) ∨
      ∃ u, e = 117 :: u := by
  cases h with
  | unit hu => exact .inr ⟨_, rfl⟩
  | pair => exact .inr ⟨_, rfl⟩
  | _ => exact .inl ⟨_, _, rfl, rfl, rfl⟩

/-- The quoted loop reads the body of a JSON string up to its closing quote. -/
theorem lexQuoted_iff {fuel : ℕ} {s t rest : Bytes} (hf : s.length < fuel) :
    lexQuoted fuel s = .ok (t, rest) ↔ ∃ body, Quoted body t ∧ s = body ++ 34 :: rest := by
  constructor
  · intro h
    clear hf
    induction fuel generalizing s t with
    | zero => simp [lexQuoted] at h
    | succ fuel ih =>
      cases s with
      | nil => simp [lexQuoted] at h
      | cons c s =>
        simp only [lexQuoted] at h
        split at h
        · rename_i hc
          cases h
          subst hc
          exact ⟨[], .nil, rfl⟩
        · rename_i hq
          split at h
          · cases h
          · rename_i h32
            have h32 : 32 ≤ c := by simpa using h32
            split at h
            · rename_i hb
              obtain ⟨r, hr, he⟩ := map_eq_ok_iff.mp h
              cases he
              obtain ⟨body, hbody, rfl⟩ := ih hr
              exact ⟨c :: body, .raw h32 hq hb hbody, rfl⟩
            · rename_i hc
              obtain rfl : c = 92 := by simpa using hc
              split at h
              · cases h
              · rename_i e s
                split at h
                · rename_i b hb
                  obtain ⟨r, hr, he⟩ := map_eq_ok_iff.mp h
                  cases he
                  obtain ⟨ch, hch, hesc, hbytes⟩ := shortEscape_iff.mp hb
                  obtain ⟨body, hbody, rfl⟩ := ih hr
                  have hquoted := Quoted.escape hesc hch hbody
                  rw [hbytes] at hquoted
                  exact ⟨_, hquoted, rfl⟩
                · split at h
                  · rename_i he
                    subst he
                    split at h
                    · cases h
                    · rename_i u s' hu
                      split at h
                      · cases h
                      · rename_i h0
                        obtain ⟨r, hr, he⟩ := map_eq_ok_iff.mp h
                        cases he
                        obtain ⟨e, ch, hesc, rfl, rfl⟩ := unicodeEscape_iff.mp hu
                        obtain ⟨body, hbody, rfl⟩ := ih hr
                        have hch : ch ≠ '\x00' := fun he => h0 (by rw [he]; rfl)
                        have hquoted := Quoted.escape hesc hch hbody
                        rw [← encode_toNat] at hquoted
                        exact ⟨_, hquoted, by simp⟩
                  · cases h
  · intro h
    obtain ⟨body, hbody, rfl⟩ := h
    induction hbody generalizing fuel with
    | nil =>
      obtain ⟨fuel, rfl⟩ : ∃ k, fuel = k + 1 := ⟨fuel - 1, by omega⟩
      simp [lexQuoted]
    | @raw c s t h32 hq hb hbody ih =>
      obtain ⟨fuel, rfl⟩ : ∃ k, fuel = k + 1 := ⟨fuel - 1, by omega⟩
      simp only [List.cons_append, List.length_cons] at hf
      have hlt : ¬ c < 32 := by simpa using h32
      have hrest := @ih fuel (by omega)
      simp only [List.cons_append, lexQuoted, if_neg hq, if_neg hlt, if_pos hb, hrest, Except.map]
    | @escape e s t c he hc hbody ih =>
      obtain ⟨fuel, rfl⟩ : ∃ k, fuel = k + 1 := ⟨fuel - 1, by omega⟩
      simp only [List.cons_append, List.append_assoc, List.length_cons, List.length_append] at hf
      have hrest := @ih fuel (by simp only [List.length_append, List.length_cons]; omega)
      have hq : ¬ (92 : Byte) = 34 := by decide
      have h32 : ¬ (92 : Byte) < 32 := by decide
      have hb : ¬ (92 : Byte) ≠ 92 := by decide
      rcases he.forms with ⟨x, b, rfl, hx, hbytes⟩ | ⟨u, rfl⟩
      · rw [hbytes]
        simp only [List.cons_append, List.nil_append] at hrest ⊢
        simp only [lexQuoted, if_neg hq, if_neg h32, if_neg hb, hx, hrest, Except.map]
      · have hu : unicodeEscape (u ++ (s ++ 34 :: rest)) = .ok (c.toNat, s ++ 34 :: rest) :=
          unicodeEscape_iff.mpr ⟨u, c, he, rfl, rfl⟩
        have h117 : shortEscape 117 = none := by decide
        have h0 : ¬ c.toNat = 0 := fun h0 => hc (Char.toNat_inj.mp h0)
        simp only [List.cons_append, List.append_assoc] at hrest ⊢
        simp only [lexQuoted, if_neg hq, if_neg h32, if_neg hb, h117, hu, if_true, h0, if_false,
          hrest, Except.map, encode_toNat]

/-! ### Lines -/

/-- A bare run has no blank, control byte, DEL or quote. -/
def BareByte (c : Byte) : Prop := isControl c = false ∧ isBlank c = false ∧ c ≠ 34

/-- A token as it is spelled and the text it stands for. -/
inductive LineToken : Bytes → Bytes → Prop
  | bare {t : Bytes} (hne : t ≠ []) (hash : t.head? ≠ some 35) (h : ∀ c ∈ t, BareByte c) : LineToken t t
  | quoted {body t : Bytes} (h : Quoted body t) : LineToken (34 :: body ++ [34]) t

/-- A line and its tokens: blanks before each token, a blank or the end after
it, and a comment from a token position to the end. -/
inductive Line : Bytes → List Bytes → Prop
  | done {blanks : Bytes} (hb : ∀ c ∈ blanks, isBlank c = true) : Line blanks []
  | comment {blanks : Bytes} (hb : ∀ c ∈ blanks, isBlank c = true) (text : Bytes) :
      Line (blanks ++ 35 :: text) []
  | token {blanks spelled t rest : Bytes} {ts : List Bytes} (hb : ∀ c ∈ blanks, isBlank c = true)
      (ht : LineToken spelled t) (hsep : rest.head?.all isBlank = true) (hrest : Line rest ts) :
      Line (blanks ++ spelled ++ rest) (t :: ts)

theorem dropWhile_blanks {blanks : Bytes} (hb : ∀ c ∈ blanks, isBlank c = true) {s : Bytes}
    (hs : ∀ c ∈ s.head?, isBlank c = false) : (blanks ++ s).dropWhile isBlank = s := by
  rw [List.dropWhile_append_of_pos hb]
  cases s with
  | nil => rfl
  | cons c s =>
    have hc := hs c (by simp)
    rw [List.dropWhile_cons_of_neg (by simp [hc])]

theorem lexBare_append {t rest : Bytes} (h : ∀ c ∈ t, BareByte c)
    (hsep : rest.head?.all isBlank = true) : lexBare (t ++ rest) = .ok (t, rest) := by
  induction t with
  | nil =>
    cases rest with
    | nil => rfl
    | cons c rest =>
      have hc : isBlank c = true := by simpa using hsep
      simp only [List.nil_append, lexBare, hc, if_true]
  | cons c t ih =>
    obtain ⟨hctl, hblank, hquote⟩ := h c (by simp)
    have hrest := ih fun d hd => h d (List.mem_cons_of_mem _ hd)
    simp only [isControl, Bool.or_eq_false_iff, decide_eq_false_iff_not, beq_eq_false_iff_ne] at hctl
    have hc : ¬ (c < 32 ∨ c = 127 ∨ c = 34) := by
      rintro (h | h | h)
      · exact hctl.1 h
      · exact hctl.2 h
      · exact hquote h
    simp only [List.cons_append, lexBare, hblank, hc, hrest, Except.map, if_false,
      Bool.false_eq_true]

theorem Line.tokens_nil {s : Bytes} (h : Line s []) :
    s.dropWhile isBlank = [] ∨ ∃ text, s.dropWhile isBlank = 35 :: text := by
  cases h with
  | done hb => exact .inl (List.dropWhile_eq_nil_iff.mpr hb)
  | comment hb text =>
    refine .inr ⟨text, dropWhile_blanks hb ?_⟩
    intro c hc
    obtain rfl : 35 = c := by simpa using hc
    decide

theorem LineToken.head {spelled t : Bytes} (h : LineToken spelled t) :
    ∃ c s, spelled = c :: s ∧ isBlank c = false ∧ c ≠ 35 := by
  cases h with
  | bare hne hash h =>
    cases spelled with
    | nil => exact absurd rfl hne
    | cons c s => exact ⟨c, s, rfl, (h c (by simp)).2.1, fun he => hash (by rw [he]; rfl)⟩
  | quoted h => exact ⟨34, _, rfl, by decide, by decide⟩

theorem Line.of_quoted {blanks s t rest : Bytes} {ts : List Bytes} (hb : ∀ c ∈ blanks, isBlank c = true)
    (hlex : lexQuoted (s.length + 1) s = .ok (t, rest)) (hsep : rest.head?.all isBlank = true)
    (hline : Line rest ts) : Line (blanks ++ 34 :: s) (t :: ts) := by
  obtain ⟨body, hbody, hs⟩ := (lexQuoted_iff (by omega)).mp hlex
  have hspell : 34 :: s = 34 :: body ++ [34] ++ rest := by simp [hs]
  rw [hspell, ← List.append_assoc]
  exact .token hb (.quoted hbody) hsep hline

theorem lexBare_ne_nil {c : Byte} {s t rest : Bytes} (hc : isBlank c = false)
    (hlex : lexBare (c :: s) = .ok (t, rest)) : t ≠ [] := by
  obtain ⟨hs, -, hsep⟩ := lexBare_spec hlex
  intro he
  rw [he, List.nil_append] at hs
  rw [← hs] at hsep
  have hblank : isBlank c = true := by simpa using hsep
  rw [hc] at hblank
  cases hblank

theorem Line.of_bare {blanks s t rest : Bytes} {c : Byte} {ts : List Bytes}
    (hb : ∀ c ∈ blanks, isBlank c = true) (hc : isBlank c = false) (hash : c ≠ 35)
    (hlex : lexBare (c :: s) = .ok (t, rest)) (hline : Line rest ts) : Line (blanks ++ c :: s) (t :: ts) := by
  have hne := lexBare_ne_nil hc hlex
  obtain ⟨hs, hbare, hsep⟩ := lexBare_spec hlex
  have hhead : t.head? ≠ some 35 := by
    cases t with
    | nil => exact absurd rfl hne
    | cons d t =>
      obtain ⟨rfl, -⟩ := List.cons.inj hs
      simpa using hash
  rw [hs, ← List.append_assoc]
  exact .token hb (.bare hne hhead hbare) hsep hline

/-- What the token loop accepts is a line with at most five tokens in all. -/
theorem lexLoop_line {fuel count : ℕ} {s : Bytes} {ts : List Bytes} (hf : s.length < fuel) (hcount : count ≤ 5)
    (h : lexLoop fuel count s = .ok ts) : Line s ts ∧ count + ts.length ≤ 5 := by
  induction fuel generalizing count s ts with
  | zero => omega
  | succ fuel ih =>
    have hsplit := List.takeWhile_append_dropWhile (p := isBlank) (l := s)
    have hblanks : ∀ c ∈ s.takeWhile isBlank, isBlank c = true := fun c hc => List.mem_takeWhile_imp hc
    have hlen := congrArg List.length hsplit
    rw [List.length_append] at hlen
    simp only [lexLoop] at h
    split at h
    · rename_i hd
      cases h
      exact ⟨.done (List.dropWhile_eq_nil_iff.mp hd), by simpa using hcount⟩
    · rename_i c s' hd
      have hc : isBlank c = false := by
        have hhead := List.dropWhile_get_zero_not isBlank s (by rw [hd]; simp)
        simpa only [hd, List.get_eq_getElem, List.getElem_cons_zero, Bool.not_eq_true] using hhead
      rw [hd] at hsplit hlen
      rw [← hsplit]
      simp only [List.length_cons] at hlen
      split at h
      · rename_i hhash
        cases h
        subst hhash
        exact ⟨.comment hblanks s', by simpa using hcount⟩
      · rename_i hash
        split at h
        · cases h
        · rename_i h5
          split at h
          -- a quoted token
          · rename_i hq
            subst hq
            split at h
            · cases h
            · rename_i t rest hlex
              obtain ⟨body, -, hs'⟩ := (lexQuoted_iff (by omega)).mp hlex
              have hlen' := congrArg List.length hs'
              simp only [List.length_append, List.length_cons] at hlen'
              split at h
              · rename_i hsep
                obtain ⟨ts', hts, rfl⟩ := map_eq_ok_iff.mp h
                obtain ⟨hline, hle⟩ := ih (by omega) (by omega) hts
                refine ⟨.of_quoted hblanks hlex hsep hline, ?_⟩
                rw [List.length_cons]
                omega
              · cases h
          -- a bare one
          · split at h
            · cases h
            · rename_i t rest hlex
              have hpos := List.length_pos_iff.mpr (lexBare_ne_nil hc hlex)
              have hlen' := congrArg List.length (lexBare_spec hlex).1
              simp only [List.length_append, List.length_cons] at hlen'
              obtain ⟨ts', hts, rfl⟩ := map_eq_ok_iff.mp h
              obtain ⟨hline, hle⟩ := ih (by omega) (by omega) hts
              refine ⟨.of_bare hblanks hc hash hlex hline, ?_⟩
              rw [List.length_cons]
              omega

/-- A line with at most five tokens in all is accepted. -/
theorem lexLoop_of_line {fuel count : ℕ} {s : Bytes} {ts : List Bytes} (hf : s.length < fuel) (hline : Line s ts)
    (hle : count + ts.length ≤ 5) : lexLoop fuel count s = .ok ts := by
  induction fuel generalizing count s ts with
  | zero => omega
  | succ fuel ih =>
    cases ts with
    | nil =>
      rcases hline.tokens_nil with hd | ⟨text, hd⟩
      · simp only [lexLoop, hd]
      · simp only [lexLoop, hd, if_true]
    | cons t ts =>
      cases hline with
      | @token blanks spelled _ rest _ hb ht hsep hrest =>
        obtain ⟨c, s', hspell, hcblank, hash⟩ := ht.head
        have hd : (blanks ++ spelled ++ rest).dropWhile isBlank = c :: (s' ++ rest) := by
          rw [List.append_assoc, hspell, List.cons_append]
          refine dropWhile_blanks hb ?_
          intro d hd
          obtain rfl : c = d := by simpa using hd
          exact hcblank
        rw [List.length_cons] at hle
        have hlen := congrArg List.length hspell
        simp only [List.length_append, List.length_cons] at hf hlen
        have hloop : lexLoop fuel (count + 1) rest = .ok ts := ih (by omega) hrest (by omega)
        simp only [lexLoop, hd, hash, if_false, show ¬ count = 5 by omega]
        cases ht with
        | bare hne hhead hbare =>
          have hcq : ¬ c = 34 := by
            have := hbare c (by rw [hspell]; simp)
            exact this.2.2
          have hlex : lexBare (c :: (s' ++ rest)) = .ok (t, rest) := by
            rw [← List.cons_append, ← hspell]
            exact lexBare_append hbare hsep
          simp only [hcq, if_false, hlex, hloop, Except.map]
        | @quoted body _ hbody =>
          rw [List.cons_append] at hspell
          obtain ⟨rfl, rfl⟩ := List.cons.inj hspell
          have hlex : lexQuoted ((body ++ [34] ++ rest).length + 1) (body ++ [34] ++ rest) =
              .ok (t, rest) := (lexQuoted_iff (by omega)).mpr ⟨body, hbody, by simp⟩
          simp only [if_true, hlex, hsep, hloop, Except.map]

/-- The token loop accepts the lines with at most five tokens in all. -/
theorem lexLoop_iff {fuel count : ℕ} {s : Bytes} {ts : List Bytes} (hf : s.length < fuel)
    (hcount : count ≤ 5) :
    lexLoop fuel count s = .ok ts ↔ Line s ts ∧ count + ts.length ≤ 5 := by
  constructor
  · intro h
    exact lexLoop_line hf hcount h
  · intro h
    exact lexLoop_of_line hf h.1 h.2

/-! ### The output buffer

`lex` copies every token into one buffer of the line's length plus one and
returns pointers into it. Here the same loops return what they wrote, also
when they give up, and each token as the place where it starts. -/

/-- `lexQuoted` with the bytes written up to its end or its error. -/
def writeQuoted : ℕ → Bytes → Bytes × Except Fault Bytes
  | 0, _ => ([], .error (fault .eQuote "quoted token requires a closing quote and separator"))
  | _, [] => ([], .error (fault .eQuote "quoted token requires a closing quote and separator"))
  | fuel + 1, c :: s =>
    if c = 34 then ([], .ok s)
    else if c < 32 then ([], .error (fault .eQuote "control byte in quoted token"))
    else if c ≠ 92 then (c :: (writeQuoted fuel s).1, (writeQuoted fuel s).2)
    else match s with
      | [] => ([], .error (fault .eQuote "unfinished escape"))
      | e :: s =>
        match shortEscape e with
        | some b => (b :: (writeQuoted fuel s).1, (writeQuoted fuel s).2)
        | none =>
          if e = 117 then
            match unicodeEscape s with
            | .error f => ([], .error f)
            | .ok (u, s) =>
              if u = 0 then ([], .error (fault .eNul "decoded NUL is forbidden"))
              else (encode u ++ (writeQuoted fuel s).1, (writeQuoted fuel s).2)
          else ([], .error (fault .eQuote "unknown JSON escape"))

def writeBare : Bytes → Bytes × Except Fault Bytes
  | [] => ([], .ok [])
  | c :: s =>
    if isBlank c then ([], .ok (c :: s))
    else if c < 32 ∨ c = 127 ∨ c = 34 then ([], .error (fault .eToken "invalid bare token"))
    else (c :: (writeBare s).1, (writeBare s).2)

/-- The token loop after `start` bytes: each token and its terminator, and
where the tokens start. -/
def writeLoop : ℕ → ℕ → ℕ → Bytes → Bytes × Except Fault (List ℕ)
  | 0, _, _, _ => ([], .ok [])
  | fuel + 1, count, start, s =>
    match s.dropWhile isBlank with
    | [] => ([], .ok [])
    | c :: s =>
      if c = 35 then ([], .ok [])
      else if count = 5 then ([], .error (fault .eFields "too many fields"))
      else
        match if c = 34 then writeQuoted (s.length + 1) s else writeBare (c :: s) with
        | (w, .error f) => (w, .error f)
        | (w, .ok rest) =>
          if c = 34 ∧ ¬ rest.head?.all isBlank then
            (w, .error (fault .eQuote "quoted token requires a closing quote and separator"))
          else
            (w ++ 0 :: (writeLoop fuel (count + 1) (start + w.length + 1) rest).1,
              (writeLoop fuel (count + 1) (start + w.length + 1) rest).2.map (start :: ·))

/-- `lex` (`policy.c:143`) with its buffer `b` and the offsets of `tokens`. -/
def writeLex (s : Bytes) : Bytes × Except Fault (List ℕ) := writeLoop (s.length + 1) 0 0 s

theorem map_comp_ok {x : Except Fault Bytes} {f : Bytes → Bytes × Bytes} {g : Bytes × Bytes → Bytes × Bytes} :
    (x.map f).map g = x.map (g ∘ f) := by
  cases x <;> rfl

theorem lexQuoted_eq_write (fuel : ℕ) (s : Bytes) :
    lexQuoted fuel s = (writeQuoted fuel s).2.map fun rest => ((writeQuoted fuel s).1, rest) := by
  fun_induction writeQuoted fuel s with
  | case1 => rfl
  | case2 => simp only [lexQuoted, Except.map]
  | case3 => simp only [lexQuoted, if_true, Except.map]
  | case4 fuel c s hq h32 => simp only [lexQuoted, if_neg hq, if_pos h32, Except.map]
  | case5 fuel c s hq h32 hb ih =>
    simp only [lexQuoted, if_neg hq, if_neg h32, if_pos hb, ih, map_comp_ok]
    rfl
  | case6 fuel c hq h32 hb => simp only [lexQuoted, if_neg hq, if_neg h32, if_neg hb, Except.map]
  | case7 fuel c hq h32 hb e s b he ih =>
    simp only [lexQuoted, if_neg hq, if_neg h32, if_neg hb, he, ih, map_comp_ok]
    rfl
  | case8 fuel c hq h32 hb s f he hu =>
    simp only [lexQuoted, if_neg hq, if_neg h32, if_neg hb, he, hu, if_true, Except.map]
  | case9 fuel c hq h32 hb s s' he hu =>
    simp only [lexQuoted, if_neg hq, if_neg h32, if_neg hb, he, hu, if_true, Except.map]
  | case10 fuel c hq h32 hb s u s' hu h0 he ih =>
    simp only [lexQuoted, if_neg hq, if_neg h32, if_neg hb, he, hu, if_true, if_neg h0, ih,
      map_comp_ok]
    rfl
  | case11 fuel c hq h32 hb e s he hu =>
    simp only [lexQuoted, if_neg hq, if_neg h32, if_neg hb, he, if_neg hu, Except.map]

/-- What the loop writes and leaves is shorter than what it reads. -/
theorem writeQuoted_length (fuel : ℕ) (s : Bytes) :
    (writeQuoted fuel s).1.length ≤ s.length ∧
      ∀ rest, (writeQuoted fuel s).2 = .ok rest → (writeQuoted fuel s).1.length + rest.length < s.length := by
  fun_induction writeQuoted fuel s with
  | case3 fuel s => simp
  | case5 fuel c s hq h32 hb ih =>
    obtain ⟨ih1, ih2⟩ := ih
    refine ⟨by simpa using ih1, ?_⟩
    intro rest hrest
    have hlt := ih2 rest hrest
    simp only [List.length_cons]
    omega
  | case7 fuel c hq h32 hb e s b he ih =>
    obtain ⟨ih1, ih2⟩ := ih
    simp only [List.length_cons]
    refine ⟨by omega, ?_⟩
    intro rest hrest
    have hlt := ih2 rest hrest
    omega
  | case10 fuel c hq h32 hb s u s' hu h0 he ih =>
    obtain ⟨ih1, ih2⟩ := ih
    have hlen := (unicodeEscape_spec hu).2.2
    simp only [List.length_cons, List.length_append]
    refine ⟨by omega, ?_⟩
    intro rest hrest
    have hlt := ih2 rest hrest
    omega
  | _ => simp

theorem lexBare_eq_write (s : Bytes) :
    lexBare s = (writeBare s).2.map fun rest => ((writeBare s).1, rest) := by
  fun_induction writeBare s with
  | case1 => rfl
  | case2 c s hb => simp only [lexBare, if_pos hb, Except.map]
  | case3 c s hb hc => simp only [lexBare, if_neg hb, if_pos hc, Except.map]
  | case4 c s hb hc ih =>
    simp only [lexBare, if_neg hb, if_neg hc, ih, map_comp_ok]
    rfl

theorem writeBare_length (s : Bytes) : (writeBare s).1.length ≤ s.length := by
  fun_induction writeBare s with
  | case4 c s hb hc ih => simpa using ih
  | _ => simp

/-- The pointers read back as the tokens, behind whatever was written before. -/
theorem lexLoop_eq_write {fuel count : ℕ} {s : Bytes} (hs : validUtf8 s = true) (before : Bytes) :
    lexLoop fuel count s = (writeLoop fuel count before.length s).2.map fun starts =>
      starts.map (cstringAt (before ++ (writeLoop fuel count before.length s).1)) := by
  induction fuel generalizing count s before with
  | zero => rfl
  | succ fuel ih =>
    have hd := validUtf8_dropWhile_blank hs
    cases hcs : s.dropWhile isBlank with
    | nil => simp only [lexLoop, writeLoop, hcs, Except.map, List.map_nil]
    | cons c s' =>
      rw [hcs] at hd
      simp only [lexLoop, writeLoop, hcs]
      by_cases hash : c = 35
      · simp only [if_pos hash, Except.map, List.map_nil]
      · by_cases h5 : count = 5
        · simp only [if_neg hash, if_pos h5, Except.map]
        · simp only [if_neg hash, if_neg h5]
          -- both kinds of token leave `t` in the buffer and go on with `rest`
          have hgo : ∀ {t rest : Bytes}, validUtf8 t = true → validUtf8 rest = true →
              (lexLoop fuel (count + 1) rest).map (t :: ·) =
                ((writeLoop fuel (count + 1) (before.length + t.length + 1) rest).2.map
                  (before.length :: ·)).map fun starts => starts.map (cstringAt (before ++ (t ++ 0 ::
                    (writeLoop fuel (count + 1) (before.length + t.length + 1) rest).1))) := by
            intro t rest ht hrest
            have hih := @ih (count + 1) rest hrest (before ++ t ++ [0])
            have hlen : (before ++ t ++ [0]).length = before.length + t.length + 1 := by
              simp only [List.length_append, List.length_cons, List.length_nil]
            rw [hlen] at hih
            have hread : ∀ w : Bytes, cstringAt (before ++ (t ++ 0 :: w)) before.length = t := by
              intro w
              rw [cstringAt, List.drop_left]
              exact takeWhile_append_zero (validUtf8_not_nul ht) w
            rw [hih]
            cases (writeLoop fuel (count + 1) (before.length + t.length + 1) rest).2 with
            | error f => rfl
            | ok starts => simp [Except.map, hread]
          by_cases hq : c = 34
          · subst hq
            rw [validUtf8_cons_ascii (by decide) (by decide)] at hd
            simp only [if_true, true_and, lexQuoted_eq_write]
            cases hw : writeQuoted (s'.length + 1) s' with
            | mk w r =>
              cases r with
              | error f => rfl
              | ok rest =>
                have hlex : lexQuoted (s'.length + 1) s' = .ok (w, rest) := by
                  rw [lexQuoted_eq_write, hw]
                  rfl
                obtain ⟨hw, hrest, -⟩ := lexQuoted_spec [] hlex hd
                by_cases hsep : rest.head?.all isBlank = true
                · simp only [Except.map, hsep, not_true_eq_false, if_true, if_false]
                  exact hgo hw hrest
                · simp only [Except.map, hsep, Bool.false_eq_true, not_false_eq_true, if_true, if_false]
          · simp only [if_neg hq, lexBare_eq_write]
            cases hw : writeBare (c :: s') with
            | mk w r =>
              cases r with
              | error f => rfl
              | ok rest =>
                have hlex : lexBare (c :: s') = .ok (w, rest) := by
                  rw [lexBare_eq_write, hw]
                  rfl
                obtain ⟨heq, -, hsep⟩ := lexBare_spec hlex
                rw [heq] at hd
                obtain ⟨hw, hrest⟩ := validUtf8_of_append_blank hd hsep
                simp only [Except.map, hq, false_and, if_false]
                exact hgo hw hrest

/-- A blank before a token pays for the terminator of the token before it. -/
theorem writeLoop_length (fuel count start : ℕ) (s : Bytes) :
    (writeLoop fuel count start s).1.length ≤ (s.dropWhile isBlank).length + 1 ∧
      (s.dropWhile isBlank = [] → (writeLoop fuel count start s).1 = []) := by
  induction fuel generalizing count start s with
  | zero => simp [writeLoop]
  | succ fuel ih =>
    simp only [writeLoop]
    split
    · simp
    · rename_i c s' hcs
      refine ⟨?_, fun h => by rw [hcs] at h; cases h⟩
      rw [hcs, List.length_cons]
      by_cases hash : c = 35
      · simp [hash]
      · by_cases h5 : count = 5
        · simp [hash, h5]
        · simp only [if_neg hash, if_neg h5]
          -- what follows a token writes no more than what it reads
          have hrest : ∀ (n : ℕ) (rest : Bytes), rest.head?.all isBlank = true →
              (writeLoop fuel (count + 1) n rest).1.length ≤ rest.length := by
            intro n rest hsep
            obtain ⟨h1, h2⟩ := ih (count + 1) n rest
            cases rest with
            | nil => simp [h2 rfl]
            | cons d rest =>
              have hd : isBlank d = true := by simpa using hsep
              rw [List.dropWhile_cons_of_pos hd] at h1
              have hle := (List.dropWhile_suffix (l := rest) isBlank).length_le
              rw [List.length_cons]
              omega
          by_cases hq : c = 34
          · obtain ⟨hw, hlt⟩ := writeQuoted_length (s'.length + 1) s'
            simp only [if_pos hq]
            cases hr : writeQuoted (s'.length + 1) s' with
            | mk w r =>
              rw [hr] at hw hlt
              cases r with
              | error f =>
                simp only at hw ⊢
                omega
              | ok rest =>
                have hlt := hlt rest rfl
                by_cases hsep : rest.head?.all isBlank = true
                · have hle := hrest (start + w.length + 1) rest hsep
                  simp only [hsep, not_true_eq_false, and_false, if_false, List.length_append,
                    List.length_cons] at hlt ⊢
                  omega
                · simp only [hq, hsep, Bool.false_eq_true, not_false_eq_true, and_true, if_true] at hw ⊢
                  omega
          · have hw := writeBare_length (c :: s')
            simp only [if_neg hq]
            cases hr : writeBare (c :: s') with
            | mk w r =>
              rw [hr, List.length_cons] at hw
              cases r with
              | error f =>
                simp only at hw ⊢
                omega
              | ok rest =>
                have hlex : lexBare (c :: s') = .ok (w, rest) := by
                  rw [lexBare_eq_write, hr]
                  rfl
                obtain ⟨heq, -, hsep⟩ := lexBare_spec hlex
                have hlen := congrArg List.length heq
                have hle := hrest (start + w.length + 1) rest hsep
                simp only [List.length_append, List.length_cons] at hlen
                simp only [hq, false_and, if_false, List.length_append, List.length_cons]
                omega

theorem writeLex_length (s : Bytes) : (writeLex s).1.length ≤ s.length + 1 := by
  have h := (writeLoop_length (s.length + 1) 0 0 s).1
  have hle := (List.dropWhile_suffix (l := s) isBlank).length_le
  rw [writeLex]
  omega

theorem lex_eq_write {s : Bytes} (hs : validUtf8 s = true) :
    lex s = (writeLex s).2.map fun starts => starts.map (cstringAt (writeLex s).1) := by
  have h := @lexLoop_eq_write (s.length + 1) 0 s hs []
  rw [lex, writeLex]
  simpa only [List.length_nil, List.nil_append] using h

/-- Escaping spells every text without control bytes as a JSON string. -/
theorem quoted_escape {s : Bytes} (h : ∀ c ∈ s, 32 ≤ c) : Quoted (escape s) s := by
  induction s with
  | nil => exact .nil
  | cons c s ih =>
    have hs := ih fun d hd => h d (List.mem_cons_of_mem _ hd)
    by_cases hc : c = 34 ∨ c = 92
    · rw [escape_cons_special hc]
      rcases hc with rfl | rfl
      · exact .escape .quote (by decide) hs
      · exact .escape .backslash (by decide) hs
    · rw [escape_cons_plain hc]
      exact .raw (h c (by simp)) (fun he => hc (.inl he)) (fun he => hc (.inr he)) hs

theorem lex_iff {s : Bytes} {ts : List Bytes} : lex s = .ok ts ↔ Line s ts ∧ ts.length ≤ 5 := by
  rw [lex, lexLoop_iff (by omega) (by omega), Nat.zero_add]

theorem lex_escape {s : Bytes} (h : ∀ c ∈ s, 32 ≤ c) : lex (34 :: escape s ++ [34]) = .ok [s] := by
  refine lex_iff.mpr ⟨?_, by simp⟩
  have hdone : Line [] [] := .done (by simp)
  have hline := Line.token (List.forall_mem_nil _) (.quoted (quoted_escape h)) rfl hdone
  simpa only [List.nil_append, List.append_nil] using hline

end JaroFilter
