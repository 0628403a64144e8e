import JaroFilter.Lib.SecureHash
import JaroFilter.Sha256

/-!
# The digest is SHA-256 (`sha256.c`, `product_util.c:50-69`)

The streaming context against the hash of the whole message, for every way of
cutting the message into updates.
-/

namespace JaroFilter

open Lib

/-! ### Words and rounds -/

/-- The machine words as words of the standard. -/
def Words.spec (v : Words) : SecureHash.State :=
  ⟨v.a.toBitVec, v.b.toBitVec, v.c.toBitVec, v.d.toBitVec, v.e.toBitVec, v.f.toBitVec, v.g.toBitVec,
    v.h.toBitVec⟩

theorem rotate_spec (x n : UInt32) (h0 : 0 < n.toNat) (h32 : n.toNat < 32) :
    (rotate x n).toBitVec = x.toBitVec.rotateRight n.toNat := by
  have hsub : (32 - n).toNat = 32 - n.toNat := by
    rw [UInt32.toNat_sub_of_le _ _ (by rw [UInt32.le_iff_toNat_le]; simpa using le_of_lt h32)]
    rfl
  have hshift : ∀ y m : UInt32, m.toNat < 32 → (y >>> m).toBitVec = y.toBitVec >>> m.toNat := by
    intro y m hm
    apply BitVec.eq_of_toNat_eq
    rw [BitVec.toNat_ushiftRight]
    simp [Nat.mod_eq_of_lt hm]
  have hleft : ∀ y m : UInt32, m.toNat < 32 → (y <<< m).toBitVec = y.toBitVec <<< m.toNat := by
    intro y m hm
    apply BitVec.eq_of_toNat_eq
    rw [BitVec.toNat_shiftLeft]
    simp [Nat.mod_eq_of_lt hm]
  rw [rotate, UInt32.toBitVec_or, hshift x n h32, hleft x (32 - n) (by omega), hsub,
    BitVec.rotateRight, BitVec.rotateRightAux, Nat.mod_eq_of_lt h32]

theorem round_spec (v : Words) (k w : UInt32) :
    (round v k w).spec = SecureHash.step v.spec k.toBitVec w.toBitVec := by
  have hr : ∀ x n : UInt32, 0 < n.toNat ∧ n.toNat < 32 →
      (rotate x n).toBitVec = x.toBitVec.rotateRight n.toNat := fun x n h => rotate_spec x n h.1 h.2
  simp only [round, Words.spec, SecureHash.step, SecureHash.bigSigma0, SecureHash.bigSigma1,
    SecureHash.ch, SecureHash.maj, UInt32.toBitVec_add, UInt32.toBitVec_xor, UInt32.toBitVec_and,
    UInt32.toBitVec_not, hr _ 6 (by decide), hr _ 11 (by decide), hr _ 25 (by decide),
    hr _ 2 (by decide), hr _ 13 (by decide), hr _ 22 (by decide)]
  rfl

/-! ### The message schedule -/

theorem blockWord_spec (block : Bytes) (i : ℕ) :
    (blockWord block i).toBitVec = SecureHash.blockWord block i := by
  have hor : ∀ x y k : ℕ, y < 2 ^ k → x <<< k ||| y = x * 2 ^ k + y := by
    intro x y k h
    rw [← Nat.shiftLeft_add_eq_or_of_lt h, Nat.shiftLeft_eq]
  apply BitVec.eq_of_toNat_eq
  rw [blockWord, SecureHash.blockWord]
  obtain ⟨a, ha⟩ : ∃ a, a = block.getD (4 * i) 0 := ⟨_, rfl⟩
  obtain ⟨b, hb⟩ : ∃ b, b = block.getD (4 * i + 1) 0 := ⟨_, rfl⟩
  obtain ⟨c, hc⟩ : ∃ c, c = block.getD (4 * i + 2) 0 := ⟨_, rfl⟩
  obtain ⟨d, hd⟩ : ∃ d, d = block.getD (4 * i + 3) 0 := ⟨_, rfl⟩
  rw [← ha, ← hb, ← hc, ← hd]
  have hal := a.toNat_lt
  have hbl := b.toNat_lt
  have hcl := c.toNat_lt
  have hdl := d.toNat_lt
  have hleft : ∀ (x : Byte) (k : UInt32), k.toNat ≤ 24 → (x.toUInt32 <<< k).toNat = x.toNat <<< k.toNat := by
    intro x k hk
    have hx := x.toNat_lt
    have hpow : 2 ^ k.toNat ≤ 2 ^ 24 := Nat.pow_le_pow_right (by omega) hk
    have hlt : x.toNat * 2 ^ k.toNat < 2 ^ 32 :=
      lt_of_lt_of_le (Nat.mul_lt_mul_of_lt_of_le hx hpow (by omega)) (by omega)
    rw [UInt32.toNat_shiftLeft, UInt8.toNat_toUInt32, Nat.mod_eq_of_lt (show k.toNat < 32 by omega),
      Nat.mod_eq_of_lt (by rw [Nat.shiftLeft_eq]; exact hlt)]
  have hnat : (a.toUInt32 <<< 24 ||| b.toUInt32 <<< 16 ||| c.toUInt32 <<< 8 ||| d.toUInt32).toNat =
      a.toNat * 2 ^ 24 + (b.toNat * 2 ^ 16 + (c.toNat * 2 ^ 8 + d.toNat)) := by
    rw [UInt32.toNat_or, UInt32.toNat_or, UInt32.toNat_or, hleft a 24 (by decide), hleft b 16 (by decide),
      hleft c 8 (by decide), UInt8.toNat_toUInt32, Nat.or_assoc, Nat.or_assoc]
    rw [show UInt32.toNat 8 = 8 from rfl, hor c.toNat d.toNat 8 (by omega),
      show UInt32.toNat 16 = 16 from rfl, hor b.toNat _ 16 (by omega),
      show UInt32.toNat 24 = 24 from rfl, hor a.toNat _ 24 (by omega)]
  rw [UInt32.toNat_toBitVec, hnat, BitVec.toNat_ofNat, Nat.mod_eq_of_lt (by omega)]
  omega

theorem scheduleWord_spec {block : Bytes} {w : List UInt32} {i : ℕ} (h16 : 16 ≤ i)
    (hw : ∀ j < i, (w.getD j 0).toBitVec = SecureHash.schedule block j) :
    (scheduleWord w i).toBitVec = SecureHash.schedule block i := by
  have hshift : ∀ (y m : UInt32), m.toNat < 32 → (y >>> m).toBitVec = y.toBitVec >>> m.toNat := by
    intro y m hm
    apply BitVec.eq_of_toNat_eq
    rw [BitVec.toNat_ushiftRight]
    simp [Nat.mod_eq_of_lt hm]
  have hr : ∀ x n : UInt32, 0 < n.toNat ∧ n.toNat < 32 →
      (rotate x n).toBitVec = x.toBitVec.rotateRight n.toNat := fun x n h => rotate_spec x n h.1 h.2
  rw [SecureHash.schedule, if_neg (by omega)]
  simp only [scheduleWord, UInt32.toBitVec_add, UInt32.toBitVec_xor, hr _ 7 (by decide),
    hr _ 18 (by decide), hr _ 17 (by decide), hr _ 19 (by decide), hshift _ 3 (by decide),
    hshift _ 10 (by decide), hw (i - 15) (by omega), hw (i - 2) (by omega), hw (i - 16) (by omega),
    hw (i - 7) (by omega), SecureHash.smallSigma0, SecureHash.smallSigma1]
  have h7 : UInt32.toNat 7 = 7 := rfl
  have h18 : UInt32.toNat 18 = 18 := rfl
  have h17 : UInt32.toNat 17 = 17 := rfl
  have h19 : UInt32.toNat 19 = 19 := rfl
  have h3 : UInt32.toNat 3 = 3 := rfl
  have h10 : UInt32.toNat 10 = 10 := rfl
  rw [h7, h18, h17, h19, h3, h10]
  ac_rfl

/-- The schedule up to any word. -/
theorem schedulePrefix_spec (block : Bytes) (n : ℕ) :
    (((List.range n).foldl (fun w i => w ++ [scheduleWord w (16 + i)])
      ((List.range 16).map (blockWord block))).map UInt32.toBitVec) =
      (List.range (16 + n)).map (SecureHash.schedule block) := by
  induction n with
  | zero =>
    rw [List.range_zero, List.foldl_nil, List.map_map]
    refine List.map_congr_left fun i hi => ?_
    rw [Function.comp_apply, blockWord_spec, SecureHash.schedule, if_pos (List.mem_range.mp hi)]
  | succ n ih =>
    obtain ⟨w, hw⟩ : ∃ w, w = (List.range n).foldl (fun w i => w ++ [scheduleWord w (16 + i)])
      ((List.range 16).map (blockWord block)) := ⟨_, rfl⟩
    rw [← hw] at ih
    have hget : ∀ j < 16 + n, (w.getD j 0).toBitVec = SecureHash.schedule block j := by
      intro j hj
      have hlen : w.length = 16 + n := by
        have hl := congrArg List.length ih
        simpa using hl
      have hlt : j < w.length := by omega
      have hi := congrArg (fun l => l[j]?) ih
      simp only [List.getElem?_map, List.getElem?_eq_getElem hlt, List.getElem?_range hj,
        Option.map_some, Option.some.injEq] at hi
      rw [List.getD_eq_getElem _ _ hlt, hi]
    rw [List.range_succ (n := n), List.foldl_append, ← hw, List.foldl_cons, List.foldl_nil,
      List.map_append, ih, List.map_singleton, scheduleWord_spec (by omega) hget, ← Nat.add_assoc,
      List.range_succ (n := 16 + n), List.map_append, List.map_singleton]

theorem schedule_spec (block : Bytes) :
    (schedule block).map UInt32.toBitVec = (List.range 64).map (SecureHash.schedule block) :=
  schedulePrefix_spec block 48

/-- The table of the source is the table of the standard. -/
theorem roundConstants_spec :
    roundConstants.map UInt32.toBitVec = (List.range 64).map SecureHash.roundConstant := by
  decide +kernel

theorem initial_spec : sha256Init.state.spec = SecureHash.initial := by decide +kernel

theorem rounds_spec (l : List (UInt32 × UInt32)) (v : Words) :
    (l.foldl (fun v kw => round v kw.1 kw.2) v).spec =
      (l.map fun kw => (kw.1.toBitVec, kw.2.toBitVec)).foldl (fun v kw => SecureHash.step v kw.1 kw.2)
        v.spec := by
  induction l generalizing v with
  | nil => rfl
  | cons x l ih => rw [List.foldl_cons, ih, List.map_cons, List.foldl_cons, round_spec]

theorem transform_spec (v : Words) (block : Bytes) :
    (transform v block).spec = SecureHash.compress v.spec block := by
  have hzip : ((roundConstants.zip (schedule block)).map fun kw => (kw.1.toBitVec, kw.2.toBitVec)) =
      (List.range 64).map fun t => (SecureHash.roundConstant t, SecureHash.schedule block t) := by
    have h : (roundConstants.map UInt32.toBitVec).zip ((schedule block).map UInt32.toBitVec) =
        (roundConstants.zip (schedule block)).map (Prod.map UInt32.toBitVec UInt32.toBitVec) :=
      List.zip_map
    rw [roundConstants_spec, schedule_spec, List.zip_map'] at h
    exact h.symm
  have hrounds := rounds_spec (roundConstants.zip (schedule block)) v
  rw [hzip, List.foldl_map] at hrounds
  obtain ⟨x, hx⟩ : ∃ x, x = (roundConstants.zip (schedule block)).foldl
    (fun v kw => round v kw.1 kw.2) v := ⟨_, rfl⟩
  rw [← hx] at hrounds
  simp only [transform, SecureHash.compress, ← hrounds, ← hx]
  simp only [Words.spec, UInt32.toBitVec_add, BitVec.add_comm]

/-! ### Blocks and padding -/

/-- Whole blocks behind an empty buffer. -/
theorem foldl_pushByte_blocks (m : Bytes) (n : ℕ) (h : 64 * n ≤ m.length) (v : Words) :
    ((m.take (64 * n)).foldl pushByte (v, [])).2 = [] ∧
      ((m.take (64 * n)).foldl pushByte (v, [])).1.spec =
        (List.range n).foldl (fun s i => SecureHash.compress s (SecureHash.block m i)) v.spec := by
  induction n with
  | zero => exact ⟨rfl, rfl⟩
  | succ n ih =>
    obtain ⟨hbuffer, hstate⟩ := ih (by omega)
    have hsplit : m.take (64 * (n + 1)) = m.take (64 * n) ++ SecureHash.block m n := by
      rw [Nat.mul_succ, List.take_add, SecureHash.block]
    have hlen : (SecureHash.block m n).length = 64 := by
      rw [SecureHash.block, List.length_take, List.length_drop]
      omega
    have hne : SecureHash.block m n ≠ [] := by
      intro he
      rw [he] at hlen
      cases hlen
    obtain ⟨x, hx⟩ : ∃ x, x = (m.take (64 * n)).foldl pushByte (v, []) := ⟨_, rfl⟩
    rw [← hx] at hbuffer hstate
    have hpair : x = (x.1, []) := Prod.ext rfl hbuffer
    rw [hsplit, List.foldl_append, ← hx, hpair, foldl_pushByte_full _ _ _ hne (by simpa using hlen),
      List.nil_append, List.range_succ, List.foldl_append, ← hstate]
    exact ⟨rfl, transform_spec _ _⟩

/-- The buffer holds what does not fill a block. -/
theorem foldl_pushByte_used (v : Words) (block data : Bytes) (hb : block.length < 64) :
    (data.foldl pushByte (v, block)).2.length = (block.length + data.length) % 64 := by
  induction data generalizing v block with
  | nil => exact (Nat.mod_eq_of_lt hb).symm
  | cons c data ih =>
    rw [List.foldl_cons, List.length_cons]
    by_cases hf : block.length + 1 = 64
    · simp only [pushByte, hf, if_true]
      rw [ih _ _ (by simp), List.length_nil]
      omega
    · simp only [pushByte, hf, if_false]
      have hlen : (block ++ [c]).length = block.length + 1 := by simp
      rw [ih _ _ (by omega), hlen]
      congr 1
      omega

theorem sha256Update_used (s : Sha256) (data : Bytes) (h : s.Ready) :
    (sha256Update s data).block.length = (s.block.length + data.length) % 64 := by
  rw [sha256Update_eq s data h]
  exact foldl_pushByte_used _ _ _ h

/-- The padding loop appends the zeros up to byte 56, and no more. -/
theorem padLoop_eq (fuel : ℕ) (s : Sha256) (h : s.Ready) (hf : (120 - s.block.length) % 64 ≤ fuel) :
    padLoop fuel s = sha256Update s (List.replicate ((120 - s.block.length) % 64) 0) := by
  have hnil : ∀ s : Sha256, s.Ready → sha256Update s [] = s := by
    intro s hs
    rw [sha256Update_eq s [] hs]
    simp
  have hready : s.block.length < 64 := h
  induction fuel generalizing s with
  | zero =>
    have h0 : (120 - s.block.length) % 64 = 0 := by omega
    rw [padLoop, h0, List.replicate_zero, hnil s h]
  | succ fuel ih =>
    rw [padLoop]
    by_cases h56 : s.block.length = 56
    · rw [if_pos h56, h56, List.replicate_zero, hnil s h]
    · have hused := sha256Update_used s [0] h
      rw [List.length_singleton] at hused
      have hnext : (120 - s.block.length) % 64 = (120 - (sha256Update s [0]).block.length) % 64 + 1 := by
        rw [hused]
        omega
      have hready' := sha256Update_ready s [0] h
      rw [if_neg h56, ih _ hready' (by omega) hready', hnext, List.replicate_succ,
        ← sha256Update_append _ _ _ h]
      rfl

/-! ### Output -/

theorem wordBytes_spec (w : UInt32) : wordBytes w = SecureHash.bigEndian 4 w.toNat := by
  have hshift : ∀ k : UInt32, k.toNat < 32 →
      (w >>> k).toUInt8 = UInt8.ofNat (w.toNat / 2 ^ k.toNat) := by
    intro k hk
    apply UInt8.toNat_inj.mp
    rw [UInt32.toNat_toUInt8, UInt32.toNat_shiftRight, Nat.mod_eq_of_lt hk, Nat.shiftRight_eq_div_pow,
      UInt8.toNat_ofNat']
  have hlow : w.toUInt8 = UInt8.ofNat w.toNat := by
    apply UInt8.toNat_inj.mp
    rw [UInt32.toNat_toUInt8, UInt8.toNat_ofNat']
  rw [wordBytes, hshift 24 (by decide), hshift 16 (by decide), hshift 8 (by decide), hlow]
  simp [SecureHash.bigEndian, List.range_succ]

theorem lengthBytes_spec {n : ℕ} (h : n < 2 ^ 61) :
    lengthBytes (UInt64.ofNat n) = SecureHash.bigEndian 8 (8 * n) := by
  obtain ⟨bits, hbits⟩ : ∃ bits, bits = UInt64.ofNat n * 8 := ⟨_, rfl⟩
  have hnat : bits.toNat = 8 * n := by
    rw [hbits, UInt64.toNat_mul, UInt64.toNat_ofNat', show UInt64.toNat 8 = 8 from rfl]
    omega
  have hshift : ∀ k : UInt64, k.toNat < 64 →
      (bits >>> k).toUInt8 = UInt8.ofNat (8 * n / 2 ^ k.toNat) := by
    intro k hk
    apply UInt8.toNat_inj.mp
    rw [UInt64.toNat_toUInt8, UInt64.toNat_shiftRight, Nat.mod_eq_of_lt hk, Nat.shiftRight_eq_div_pow,
      hnat, UInt8.toNat_ofNat']
  have hlow : bits.toUInt8 = UInt8.ofNat (8 * n) := by
    apply UInt8.toNat_inj.mp
    rw [UInt64.toNat_toUInt8, hnat, UInt8.toNat_ofNat']
  rw [lengthBytes, ← hbits, hshift 56 (by decide), hshift 48 (by decide), hshift 40 (by decide),
    hshift 32 (by decide), hshift 24 (by decide), hshift 16 (by decide), hshift 8 (by decide), hlow]
  simp [SecureHash.bigEndian, List.range_succ]

theorem Words.bytes_spec (v : Words) : v.bytes = v.spec.bytes := by
  simp only [Words.bytes, Words.spec, SecureHash.State.bytes, wordBytes_spec, List.flatMap_cons,
    List.flatMap_nil, List.append_nil, List.append_assoc]
  rfl

theorem digestHex_spec (s : Bytes) : digestHex s = SecureHash.hexText s := by
  have hall : ∀ n : Fin 16, hexChar n.val = UInt8.ofNat (Nat.digitChar n.val).toNat := by
    decide
  refine List.flatMap_congr fun b _ => ?_
  have hb := b.toNat_lt
  rw [byteHex, hall ⟨b.toNat / 16, by omega⟩, hall ⟨b.toNat % 16, by omega⟩]
  rfl

/-! ### The digest -/

/-- The state behind the padded message. -/
theorem state_pad (m : Bytes) :
    (sha256Update sha256Init (SecureHash.pad m)).state.bytes = SecureHash.sha256 m := by
  have halign := SecureHash.pad_aligned m
  have hlen : 64 * ((SecureHash.pad m).length / 64) = (SecureHash.pad m).length := by omega
  obtain ⟨-, hstate⟩ := foldl_pushByte_blocks (SecureHash.pad m) ((SecureHash.pad m).length / 64)
    (by omega) sha256Init.state
  rw [hlen, List.take_length, initial_spec] at hstate
  rw [sha256Update_eq _ _ sha256Init_ready, Words.bytes_spec, SecureHash.sha256, ← hstate]
  rfl

theorem sha256Hex_update {m : Bytes} (h : m.length < 2 ^ 61) :
    sha256Hex (sha256Update sha256Init m) = SecureHash.hexText (SecureHash.sha256 m) := by
  obtain ⟨s, hs⟩ : ∃ s, s = sha256Update sha256Init m := ⟨_, rfl⟩
  have hready : s.Ready := hs ▸ sha256Update_ready _ m sha256Init_ready
  have hused : s.block.length = m.length % 64 := by
    rw [hs, sha256Update_used _ m sha256Init_ready]
    simp [sha256Init]
  have hmark := sha256Update_used s [0x80] hready
  rw [List.length_singleton, hused] at hmark
  have hzeros : (120 - (sha256Update s [0x80]).block.length) % 64 = SecureHash.zeros m.length := by
    rw [hmark, SecureHash.zeros]
    omega
  have hbytes : s.bytes = UInt64.ofNat m.length := by
    rw [hs, sha256Update_eq _ m sha256Init_ready]
    simp [sha256Init]
  have hready1 := sha256Update_ready s [0x80] hready
  have hready2 := sha256Update_ready _ (List.replicate (SecureHash.zeros m.length) 0) hready1
  have hpadded : sha256Update (padLoop 64 (sha256Update s [0x80])) (lengthBytes s.bytes) =
      sha256Update sha256Init (SecureHash.pad m) := by
    rw [padLoop_eq 64 _ hready1 (by omega), hzeros, hbytes, lengthBytes_spec h,
      ← sha256Update_append _ _ _ hready1, ← sha256Update_append _ _ _ hready, hs,
      ← sha256Update_append _ _ _ sha256Init_ready]
    rfl
  rw [← hs, sha256Hex, hpadded, ← digestHex, state_pad, digestHex_spec]

/-- However a message is cut into updates, its text digest is the lower-case
hexadecimal SHA-256, and `jf_digest` gives the same digest as bytes. -/
theorem digest_is_sha256 (chunks : List Bytes) (h : chunks.flatten.length < 2 ^ 61) :
    sha256Hex (chunks.foldl sha256Update sha256Init) =
        SecureHash.hexText (SecureHash.sha256 chunks.flatten) ∧
      digest chunks.flatten = SecureHash.sha256 chunks.flatten := by
  have hhex := sha256Hex_update h
  rw [foldl_sha256Update sha256Init sha256Init_ready chunks]
  refine ⟨hhex, ?_⟩
  rw [digest, hhex, ← digestHex_spec, unhex_digestHex]

/-- `abc`, in three pieces. -/
theorem digest_is_sha256_abc :
    sha256Hex ([[97], [], [98, 99]].foldl sha256Update sha256Init) =
        SecureHash.hexText (SecureHash.sha256 [97, 98, 99]) ∧
      digest [97, 98, 99] = SecureHash.sha256 [97, 98, 99] :=
  digest_is_sha256 [[97], [], [98, 99]] (by decide)

/-- The example of the standard. -/
example : digestHex (digest (cstr "abc")) =
    cstr "ba7816bf8f01cfea414140de5dae2223b00361a396177a9cb410ff61f20015ad" := by decide +kernel

end JaroFilter
