import JaroFilter.Policy.Grammar

/-!
# The scalar values of a text (`policy.c:89-140`)

The code points `jf_valid_utf8` runs through, against the encoding form written
out in arithmetic: acceptance is being a sequence of encodings, the sequence is
unique, and `encode` writes the encoding.
-/

namespace JaroFilter

open Lib

/-- The UTF-8 encoding form: the bits of a scalar value, six to a continuation
byte. -/
def utf8Bytes (c : ℕ) : Bytes :=
  if c < 0x80 then [UInt8.ofNat c]
  else if c < 0x800 then [UInt8.ofNat (0xc0 + c / 64), UInt8.ofNat (0x80 + c % 64)]
  else if c < 0x10000 then
    [UInt8.ofNat (0xe0 + c / 4096), UInt8.ofNat (0x80 + c / 64 % 64), UInt8.ofNat (0x80 + c % 64)]
  else
    [UInt8.ofNat (0xf0 + c / 262144), UInt8.ofNat (0x80 + c / 4096 % 64),
      UInt8.ofNat (0x80 + c / 64 % 64), UInt8.ofNat (0x80 + c % 64)]

/-- The values of `c` behind the continuation loop, one for each turn of the
outer loop of `jf_valid_utf8`. -/
def scalars : Bytes → Option (List ℕ)
  | [] => some []
  | c :: s =>
    if c = 0 then none
    else if c < 128 then (scalars s).map (c.toNat :: ·)
    else if 0xc2 ≤ c ∧ c ≤ 0xdf then
      match s with
      | a :: s =>
        let n := addCont (c.toNat &&& 31) a
        if isCont a && scalarFrom 0x80 n then (scalars s).map (n :: ·) else none
      | _ => none
    else if 0xe0 ≤ c ∧ c ≤ 0xef then
      match s with
      | a :: b :: s =>
        let n := addCont (addCont (c.toNat &&& 15) a) b
        if isCont a && isCont b && scalarFrom 0x800 n then (scalars s).map (n :: ·) else none
      | _ => none
    else if 0xf0 ≤ c ∧ c ≤ 0xf4 then
      match s with
      | a :: b :: d :: s =>
        let n := addCont (addCont (addCont (c.toNat &&& 7) a) b) d
        if isCont a && isCont b && isCont d && scalarFrom 0x10000 n then (scalars s).map (n :: ·)
        else none
      | _ => none
    else none

/-- The decoder and the validator take the same turns. -/
theorem scalars_isSome (s : Bytes) : (scalars s).isSome = validUtf8 s := by
  fun_induction scalars s with
  | case1 => rfl
  | case2 s =>
    rw [validUtf8_cons, if_pos rfl]
    rfl
  | case3 c s h0 h1 ih => rw [validUtf8_cons, if_neg h0, if_pos h1, Option.isSome_map, ih]
  | case4 c h0 h1 h2 a s n hn ih =>
    rw [validUtf8_cons, if_neg h0, if_neg h1, if_pos h2, Option.isSome_map, ih]
    simp only [hn, n, Bool.true_and]
  | case5 c h0 h1 h2 a s n hn =>
    rw [validUtf8_cons, if_neg h0, if_neg h1, if_pos h2]
    simp only [Bool.not_eq_true] at hn
    simp only [hn, n, Bool.false_and, Option.isSome_none]
  | case6 c s h0 h1 h2 hs =>
    rw [validUtf8_cons, if_neg h0, if_neg h1, if_pos h2]
    split
    · exact absurd rfl (hs _ _)
    · rfl
  | case7 c h0 h1 h2 h3 a b s n hn ih =>
    rw [validUtf8_cons, if_neg h0, if_neg h1, if_neg h2, if_pos h3, Option.isSome_map, ih]
    simp only [hn, n, Bool.true_and]
  | case8 c h0 h1 h2 h3 a b s n hn =>
    rw [validUtf8_cons, if_neg h0, if_neg h1, if_neg h2, if_pos h3]
    simp only [Bool.not_eq_true] at hn
    simp only [hn, n, Bool.false_and, Option.isSome_none]
  | case9 c s h0 h1 h2 h3 hs =>
    rw [validUtf8_cons, if_neg h0, if_neg h1, if_neg h2, if_pos h3]
    split
    · exact absurd rfl (hs _ _ _)
    · rfl
  | case10 c h0 h1 h2 h3 h4 a b d s n hn ih =>
    rw [validUtf8_cons, if_neg h0, if_neg h1, if_neg h2, if_neg h3, if_pos h4, Option.isSome_map, ih]
    simp only [hn, n, Bool.true_and]
  | case11 c h0 h1 h2 h3 h4 a b d s n hn =>
    rw [validUtf8_cons, if_neg h0, if_neg h1, if_neg h2, if_neg h3, if_pos h4]
    simp only [Bool.not_eq_true] at hn
    simp only [hn, n, Bool.false_and, Option.isSome_none]
  | case12 c s h0 h1 h2 h3 h4 hs =>
    rw [validUtf8_cons, if_neg h0, if_neg h1, if_neg h2, if_neg h3, if_pos h4]
    split
    · exact absurd rfl (hs _ _ _ _)
    · rfl
  | case13 c s h0 h1 h2 h3 h4 =>
    rw [validUtf8_cons, if_neg h0, if_neg h1, if_neg h2, if_neg h3, if_neg h4]
    rfl

/-- `encode` writes the encoding form. -/
theorem encode_eq {c : ℕ} (h : isScalar c) : encode c = utf8Bytes c := by
  obtain ⟨_, hmax, _⟩ := h
  have hs6 : c >>> 6 = c / 64 := Nat.shiftRight_eq_div_pow _ 6
  have hs12 : c >>> 12 = c / 4096 := Nat.shiftRight_eq_div_pow _ 12
  have hs18 : c >>> 18 = c / 262144 := Nat.shiftRight_eq_div_pow _ 18
  have hcont : ∀ n, 0x80 ||| (n &&& 63) = 0x80 + n % 64 := fun n => by rw [contByte_eq, Nat.add_comm]
  simp only [encode, utf8Bytes, hcont, hs6, hs12, hs18]
  split
  · rfl
  · split
    · rw [or_of_lt (k := 6) 0xc0 5 rfl (by omega), Nat.add_comm]
    · split
      · rw [or_of_lt (k := 14) 0xe0 4 rfl (by omega), Nat.add_comm]
      · rw [or_of_lt (k := 30) 0xf0 3 rfl (by omega), Nat.add_comm]

/-- What the decoder reads are scalar values, and the text is their encodings. -/
theorem scalars_sound {s : Bytes} {cs : List ℕ} (h : scalars s = some cs) :
    (∀ c ∈ cs, isScalar c) ∧ s = cs.flatMap utf8Bytes := by
  have hstep : ∀ {n : ℕ} {t s : Bytes} {ds : List ℕ}, isScalar n → encode n = t →
      (∀ c ∈ ds, isScalar c) ∧ s = ds.flatMap utf8Bytes →
      (∀ c ∈ n :: ds, isScalar c) ∧ t ++ s = (n :: ds).flatMap utf8Bytes := by
    intro n t s ds hn henc hrest
    refine ⟨List.forall_mem_cons.mpr ⟨hn, hrest.1⟩, ?_⟩
    rw [List.flatMap_cons, ← encode_eq hn, henc, ← hrest.2]
  fun_induction scalars s generalizing cs with
  | case1 =>
    cases h
    exact ⟨by simp, rfl⟩
  | case2 | case5 | case6 | case8 | case9 | case11 | case12 | case13 => cases h
  | case3 c s h0 h1 ih =>
    obtain ⟨ds, hds, rfl⟩ := Option.map_eq_some_iff.mp h
    have hlt : c.toNat < 128 := h1
    refine hstep (t := [c]) ⟨fun he => h0 (UInt8.toNat_inj.mp he), by omega, by omega⟩ ?_ (ih hds)
    rw [encode, if_pos hlt, UInt8.ofNat_toNat]
  | case4 c h0 h1 h2 a s n hn =>
    rename_i ih
    obtain ⟨ds, hds, rfl⟩ := Option.map_eq_some_iff.mp h
    rw [Bool.and_eq_true] at hn
    exact hstep (isScalar_of_scalarFrom (by omega) hn.2).1 (encode_two h2 hn.1 hn.2) (ih hds)
  | case7 c h0 h1 h2 h3 a b s n hn =>
    rename_i ih
    obtain ⟨ds, hds, rfl⟩ := Option.map_eq_some_iff.mp h
    rw [Bool.and_eq_true, Bool.and_eq_true] at hn
    exact hstep (isScalar_of_scalarFrom (by omega) hn.2).1 (encode_three h3 hn.1.1 hn.1.2 hn.2)
      (ih hds)
  | case10 c h0 h1 h2 h3 h4 a b d s n hn =>
    rename_i ih
    obtain ⟨ds, hds, rfl⟩ := Option.map_eq_some_iff.mp h
    rw [Bool.and_eq_true, Bool.and_eq_true, Bool.and_eq_true] at hn
    exact hstep (isScalar_of_scalarFrom (by omega) hn.2).1
      (encode_four h4 hn.1.1.1 hn.1.1.2 hn.1.2 hn.2) (ih hds)

/-- One encoding in front is one scalar value in front. -/
theorem scalars_encode {c : ℕ} (h : isScalar c) (s : Bytes) :
    scalars (encode c ++ s) = (scalars s).map (c :: ·) := by
  have hscalar := h
  obtain ⟨h0, hmax, _⟩ := h
  have hs6 : c >>> 6 = c / 64 := Nat.shiftRight_eq_div_pow c 6
  have hs12 : c >>> 12 = c / 4096 := Nat.shiftRight_eq_div_pow c 12
  have hs18 : c >>> 18 = c / 262144 := Nat.shiftRight_eq_div_pow c 18
  unfold encode
  split
  · rename_i hlt
    have hn : (UInt8.ofNat c).toNat = c := UInt8.toNat_ofNat_of_lt' (by simp [UInt8.size]; omega)
    have hz : ¬ UInt8.ofNat c = 0 := fun he => h0 (by rw [← hn, he]; rfl)
    have hb : UInt8.ofNat c < 128 := by
      rw [UInt8.lt_iff_toNat_lt, hn]
      exact hlt
    rw [List.singleton_append, scalars.eq_def]
    simp only [hz, hb, hn, if_true, if_false]
  · split
    · rename_i hge hlt
      obtain ⟨hlo, hhi, hbits⟩ := leadByte_two (n := c >>> 6) (by omega) (by omega)
      obtain ⟨ha, hav⟩ := addCont_contByte (c >>> 6) c
      have hz : UInt8.ofNat (0xc0 ||| c >>> 6) ≠ 0 := by grind
      have hb : ¬ UInt8.ofNat (0xc0 ||| c >>> 6) < 128 := by grind
      have hval : c >>> 6 * 64 + c % 64 = c := by omega
      simp only [List.cons_append, List.nil_append]
      rw [scalars.eq_def]
      simp only [hz, hb, hlo, hhi, and_self, if_true, if_false, hbits, hav, hval, ha, scalarFrom_of_isScalar hscalar (show 0x80 ≤ c by omega),
        Bool.and_self, if_true]
    · split
      · rename_i hge hlt
        obtain ⟨hlo, hhi, hbits⟩ := leadByte_three (n := c >>> 12) (by omega)
        obtain ⟨ha, hav⟩ := addCont_contByte (c >>> 12) (c >>> 6)
        obtain ⟨hb, hbv⟩ := addCont_contByte (c >>> 12 * 64 + c >>> 6 % 64) c
        have hz : UInt8.ofNat (0xe0 ||| c >>> 12) ≠ 0 := by grind
        have hn1 : ¬ UInt8.ofNat (0xe0 ||| c >>> 12) < 128 := by grind
        have hn2 : ¬ ((0xc2 : Byte) ≤ UInt8.ofNat (0xe0 ||| c >>> 12) ∧
          UInt8.ofNat (0xe0 ||| c >>> 12) ≤ 0xdf) := by grind
        have hval : (c >>> 12 * 64 + c >>> 6 % 64) * 64 + c % 64 = c := by omega
        simp only [List.cons_append, List.nil_append]
        rw [scalars.eq_def]
        simp only [hz, hn1, hn2, hlo, hhi, and_self, if_true, if_false, hbits, hav, hbv, hval, ha, hb,
          scalarFrom_of_isScalar hscalar (show 0x800 ≤ c by omega), Bool.and_self, if_true]
      · rename_i hge
        obtain ⟨hlo, hhi, hbits⟩ := leadByte_four (n := c >>> 18) (by omega)
        obtain ⟨ha, hav⟩ := addCont_contByte (c >>> 18) (c >>> 12)
        obtain ⟨hb, hbv⟩ := addCont_contByte (c >>> 18 * 64 + c >>> 12 % 64) (c >>> 6)
        obtain ⟨hd, hdv⟩ :=
          addCont_contByte ((c >>> 18 * 64 + c >>> 12 % 64) * 64 + c >>> 6 % 64) c
        have hz : UInt8.ofNat (0xf0 ||| c >>> 18) ≠ 0 := by grind
        have hn1 : ¬ UInt8.ofNat (0xf0 ||| c >>> 18) < 128 := by grind
        have hn2 : ¬ ((0xc2 : Byte) ≤ UInt8.ofNat (0xf0 ||| c >>> 18) ∧
          UInt8.ofNat (0xf0 ||| c >>> 18) ≤ 0xdf) := by grind
        have hn3 : ¬ ((0xe0 : Byte) ≤ UInt8.ofNat (0xf0 ||| c >>> 18) ∧
          UInt8.ofNat (0xf0 ||| c >>> 18) ≤ 0xef) := by grind
        have hval : ((c >>> 18 * 64 + c >>> 12 % 64) * 64 + c >>> 6 % 64) * 64 + c % 64 = c := by omega
        simp only [List.cons_append, List.nil_append]
        rw [scalars.eq_def]
        simp only [hz, hn1, hn2, hn3, hlo, hhi, and_self, if_true, if_false, hbits, hav, hbv, hdv, hval, ha, hb, hd,
          scalarFrom_of_isScalar hscalar (show 0x10000 ≤ c by omega), Bool.and_self, if_true]

theorem scalars_flatMap {cs : List ℕ} (h : ∀ c ∈ cs, isScalar c) :
    scalars (cs.flatMap utf8Bytes) = some cs := by
  induction cs with
  | nil => rfl
  | cons c cs ih =>
    obtain ⟨hc, hcs⟩ := List.forall_mem_cons.mp h
    rw [List.flatMap_cons, ← encode_eq hc, scalars_encode hc, ih hcs]
    rfl

/-- `jf_valid_utf8` accepts exactly the concatenations of encodings of scalar
values other than NUL, each text in one way only; what `encode` writes is the
encoding, is accepted and is read back. -/
theorem validUtf8_exact :
    (∀ s, validUtf8 s = true ↔ ∃ cs : List ℕ, (∀ c ∈ cs, isScalar c) ∧ s = cs.flatMap utf8Bytes) ∧
      (∀ s cs, scalars s = some cs ↔ (∀ c ∈ cs, isScalar c) ∧ s = cs.flatMap utf8Bytes) ∧
      ∀ c, isScalar c → encode c = utf8Bytes c ∧ validUtf8 (encode c) = true ∧
        scalars (encode c) = some [c] := by
  have hscalars : ∀ s cs, scalars s = some cs ↔ (∀ c ∈ cs, isScalar c) ∧ s = cs.flatMap utf8Bytes := by
    intro s cs
    constructor
    · exact scalars_sound
    · rintro ⟨hcs, rfl⟩
      exact scalars_flatMap hcs
  refine ⟨?_, hscalars, ?_⟩
  · intro s
    rw [← scalars_isSome, Option.isSome_iff_exists]
    exact exists_congr fun cs => hscalars s cs
  · intro c hc
    have hone := scalars_encode hc []
    rw [List.append_nil] at hone
    exact ⟨encode_eq hc, validUtf8_encode hc, hone⟩

/-- The euro sign. -/
theorem validUtf8_exact_sample : encode 0x20ac = utf8Bytes 0x20ac ∧
    validUtf8 (encode 0x20ac) = true ∧ scalars (encode 0x20ac) = some [0x20ac] :=
  validUtf8_exact.2.2 0x20ac ⟨by decide, by decide, by decide⟩

/-- A surrogate, and an overlong slash. -/
example : validUtf8 [0xed, 0xa0, 0x80] = false ∧ validUtf8 [0xc0, 0xaf] = false := by decide

end JaroFilter
