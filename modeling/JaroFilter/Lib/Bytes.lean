import Mathlib

/-!
# Byte strings

Byte strings as lists of octets, with the C idioms every module of the
development reads them through: literals, `strcmp` order, ASCII case folding,
blanks and physical lines. Nothing here depends on the program.
-/

namespace JaroFilter.Lib

abbrev Byte := UInt8
abbrev Bytes := List Byte

/-- The bytes of a C string literal, without its terminator. -/
def cstr (s : String) : Bytes := s.toByteArray.data.toList

/-- `strcmp` on NUL-free strings: unsigned lexicographic order. -/
def strcmp (a b : Bytes) : Ordering := compare a b

instance : Std.TransCmp strcmp := inferInstanceAs (Std.TransCmp (compare : Bytes → Bytes → Ordering))
instance : Std.LawfulEqCmp strcmp :=
  inferInstanceAs (Std.LawfulEqCmp (compare : Bytes → Bytes → Ordering))

theorem strcmp_eq_iff (a b : Bytes) : strcmp a b = .eq ↔ a = b :=
  Std.LawfulEqCmp.compare_eq_iff_eq

/-- A property of every element and of the default holds of every read. -/
theorem getD_of_forall {α : Type} {l : List α} {d : α} {P : α → Prop} (h : ∀ x ∈ l, P x) (hd : P d)
    (i : ℕ) : P (l.getD i d) := by
  by_cases hi : i < l.length
  · rw [List.getD_eq_getElem _ _ hi]
    exact h _ (List.getElem_mem _)
  · rw [List.getD_eq_default _ _ (by omega)]
    exact hd

/-! ### Character classes -/

def isBlank (c : Byte) : Bool := c == 32 || c == 9

def isControl (c : Byte) : Bool := c < 32 || c == 127

def isAlnum (c : Byte) : Bool :=
  (97 ≤ c && c ≤ 122) || (65 ≤ c && c ≤ 90) || (48 ≤ c && c ≤ 57)

/-- ASCII upper case to lower case; every other byte is itself. -/
def foldByte (c : Byte) : Byte := if 65 ≤ c ∧ c ≤ 90 then c + 32 else c

def foldBytes (s : Bytes) : Bytes := s.map foldByte

@[simp] theorem foldBytes_nil : foldBytes [] = [] := rfl

@[simp] theorem foldBytes_cons (c : Byte) (s : Bytes) :
    foldBytes (c :: s) = foldByte c :: foldBytes s := rfl

@[simp] theorem foldBytes_append (s t : Bytes) :
    foldBytes (s ++ t) = foldBytes s ++ foldBytes t := List.map_append

@[simp] theorem foldBytes_length (s : Bytes) : (foldBytes s).length = s.length :=
  List.length_map ..

@[simp] theorem foldByte_foldByte (c : Byte) : foldByte (foldByte c) = foldByte c := by
  unfold foldByte
  grind

@[simp] theorem foldBytes_foldBytes (s : Bytes) : foldBytes (foldBytes s) = foldBytes s := by
  simp [foldBytes]

/-- Folding only moves letters to letters, so it neither creates nor destroys
a byte that is not a letter. -/
theorem foldByte_eq_iff {c d : Byte} (hd : ¬ (65 ≤ d ∧ d ≤ 90)) (hl : ¬ (97 ≤ d ∧ d ≤ 122)) :
    foldByte c = d ↔ c = d := by
  unfold foldByte
  grind

theorem foldByte_of_not_upper {c : Byte} (h : ¬ (65 ≤ c ∧ c ≤ 90)) : foldByte c = c := by
  simp only [foldByte, h, if_false]

theorem foldByte_not_upper (c : Byte) : ¬ (65 ≤ foldByte c ∧ foldByte c ≤ 90) := by
  unfold foldByte
  grind

theorem isAlnum_foldByte (c : Byte) : isAlnum (foldByte c) = isAlnum c := by
  unfold isAlnum foldByte
  grind

/-! ### Backslash escaping -/

/-- Quote and backslash each with a backslash in front. -/
def escape (s : Bytes) : Bytes := s.flatMap fun c => if c = 34 ∨ c = 92 then [92, c] else [c]

@[simp] theorem escape_nil : escape [] = [] := rfl

theorem escape_cons_special {c : Byte} (h : c = 34 ∨ c = 92) (s : Bytes) :
    escape (c :: s) = 92 :: c :: escape s := by
  simp [escape, h]

theorem escape_cons_plain {c : Byte} (h : ¬ (c = 34 ∨ c = 92)) (s : Bytes) :
    escape (c :: s) = c :: escape s := by
  simp [escape, h]

theorem mem_escape {s : Bytes} {c : Byte} (h : c ∈ escape s) : c = 92 ∨ c ∈ s := by
  induction s with
  | nil => simp at h
  | cons d s ih =>
    by_cases hd : d = 34 ∨ d = 92
    · rw [escape_cons_special hd] at h
      simp only [List.mem_cons] at h ⊢
      tauto
    · rw [escape_cons_plain hd] at h
      simp only [List.mem_cons] at h ⊢
      tauto

theorem foldBytes_escape (s : Bytes) : foldBytes (escape s) = escape (foldBytes s) := by
  induction s with
  | nil => rfl
  | cons c s ih =>
    have h34 : foldByte c = 34 ↔ c = 34 := foldByte_eq_iff (by decide) (by decide)
    have h92 : foldByte c = 92 ↔ c = 92 := foldByte_eq_iff (by decide) (by decide)
    have hback : foldByte 92 = 92 := by decide
    by_cases hc : c = 34 ∨ c = 92
    · have hf : foldByte c = 34 ∨ foldByte c = 92 := by rwa [h34, h92]
      simp only [escape_cons_special hc, foldBytes_cons, escape_cons_special hf, ih, hback]
    · have hf : ¬ (foldByte c = 34 ∨ foldByte c = 92) := by rwa [h34, h92]
      simp only [escape_cons_plain hc, foldBytes_cons, escape_cons_plain hf, ih]

/-! ### Physical lines -/

/-- The pieces of a buffer between line feeds; a final piece without its line
feed counts only when it is nonempty. -/
def lines : Bytes → List Bytes
  | [] => []
  | c :: s =>
    if c = 10 then [] :: lines s
    else match lines s with
      | [] => [[c]]
      | l :: ls => (c :: l) :: ls

@[simp] theorem lines_nil : lines [] = [] := rfl

theorem lines_append_lf (l rest : Bytes) (h : 10 ∉ l) :
    lines (l ++ 10 :: rest) = l :: lines rest := by
  induction l with
  | nil => simp [lines]
  | cons c l ih =>
    have hc : c ≠ 10 := fun he => h (by simp [he])
    have hl : 10 ∉ l := fun hm => h (List.mem_cons_of_mem _ hm)
    simp only [List.cons_append, lines, hc, if_false, ih hl]

/-- A line's payload: one carriage return before the line feed is dropped. -/
def chopCr (l : Bytes) : Bytes := if l.getLast? = some 13 then l.dropLast else l

/-! ### Trimming -/

/-- Outer blanks removed. -/
def trimBlanks (s : Bytes) : Bytes := (s.dropWhile isBlank).rdropWhile isBlank

theorem trimBlanks_of_ends {s : Bytes} (hh : ∀ c ∈ s.head?, isBlank c = false)
    (hl : ∀ c ∈ s.getLast?, isBlank c = false) : trimBlanks s = s := by
  have h1 : s.dropWhile isBlank = s := by
    cases s with
    | nil => rfl
    | cons c s =>
      have hc := hh c (by simp)
      simp [hc]
  rw [trimBlanks, h1, List.rdropWhile_eq_self_iff]
  intro hne hb
  have hlast := hl (s.getLast hne) (by simp [List.getLast?_eq_some_getLast hne])
  rw [hb] at hlast
  exact absurd hlast (by decide)

/-! ### Decimal numbers -/

/-- The `%zu` text of a number. -/
def decimalText (n : ℕ) : Bytes :=
  if n = 0 then [48] else (Nat.digits 10 n).reverse.map fun d => UInt8.ofNat (48 + d)

/-- The value of a string of digits, most significant first. -/
def decimalValue (s : Bytes) : ℕ := s.foldl (fun n c => n * 10 + (c.toNat - 48)) 0

theorem toNat_digitByte {d : ℕ} (h : d < 10) : (UInt8.ofNat (48 + d)).toNat - 48 = d := by
  rw [UInt8.toNat_ofNat_of_lt' (by simp [UInt8.size]; omega)]
  omega

theorem decimalValue_reverse_digits (l : List ℕ) (h : ∀ d ∈ l, d < 10) :
    decimalValue (l.reverse.map fun d => UInt8.ofNat (48 + d)) = Nat.ofDigits 10 l := by
  induction l with
  | nil => rfl
  | cons d l ih =>
    have hd : d < 10 := h d (by simp)
    have ih := ih fun e he => h e (by simp [he])
    simp only [decimalValue] at ih ⊢
    rw [List.reverse_cons, List.map_append, List.foldl_append, ih]
    simp only [List.map_cons, List.map_nil, List.foldl_cons, List.foldl_nil, toNat_digitByte hd,
      Nat.ofDigits_cons]
    omega

theorem decimalValue_decimalText (n : ℕ) : decimalValue (decimalText n) = n := by
  by_cases h : n = 0
  · subst h
    rfl
  · rw [decimalText, if_neg h, decimalValue_reverse_digits _ fun d => Nat.digits_lt_base (by omega),
      Nat.ofDigits_digits]

theorem decimalText_injective : Function.Injective decimalText :=
  Function.LeftInverse.injective decimalValue_decimalText

theorem decimalText_digits (n : ℕ) : ∀ c ∈ decimalText n, 48 ≤ c ∧ c ≤ 57 := by
  intro c hc
  have hall : ∀ d : Fin 10, 48 ≤ UInt8.ofNat (48 + d.val) ∧ UInt8.ofNat (48 + d.val) ≤ 57 := by decide
  by_cases h : n = 0
  · subst h
    have hc : c = 48 := by simpa [decimalText] using hc
    subst hc
    decide
  · rw [decimalText, if_neg h] at hc
    obtain ⟨d, hd, rfl⟩ := List.mem_map.mp hc
    exact hall ⟨d, Nat.digits_lt_base (by omega) (List.mem_reverse.mp hd)⟩

theorem decimalText_nul (n : ℕ) : 0 ∉ decimalText n := by
  intro h
  have hdigit := (decimalText_digits n 0 h).1
  exact absurd hdigit (by decide)

end JaroFilter.Lib
