import JaroFilter.Lib.Bytes

/-!
# SHA-256 (`sha256.c`) and the digest helpers (`product_util.c:50-69`)

The streaming context with its block buffer, padding and hexadecimal output.
The proofs here are about streaming and about the shape of the output: an
update may be split anywhere, and a digest is 32 bytes or 64 lower-case digits.
-/

namespace JaroFilter

open Lib

def rotate (x : UInt32) (n : UInt32) : UInt32 := (x >>> n) ||| (x <<< (32 - n))

def roundConstants : List UInt32 := [
  0x428a2f98, 0x71374491, 0xb5c0fbcf, 0xe9b5dba5, 0x3956c25b, 0x59f111f1, 0x923f82a4, 0xab1c5ed5,
  0xd807aa98, 0x12835b01, 0x243185be, 0x550c7dc3, 0x72be5d74, 0x80deb1fe, 0x9bdc06a7, 0xc19bf174,
  0xe49b69c1, 0xefbe4786, 0x0fc19dc6, 0x240ca1cc, 0x2de92c6f, 0x4a7484aa, 0x5cb0a9dc, 0x76f988da,
  0x983e5152, 0xa831c66d, 0xb00327c8, 0xbf597fc7, 0xc6e00bf3, 0xd5a79147, 0x06ca6351, 0x14292967,
  0x27b70a85, 0x2e1b2138, 0x4d2c6dfc, 0x53380d13, 0x650a7354, 0x766a0abb, 0x81c2c92e, 0x92722c85,
  0xa2bfe8a1, 0xa81a664b, 0xc24b8b70, 0xc76c51a3, 0xd192e819, 0xd6990624, 0xf40e3585, 0x106aa070,
  0x19a4c116, 0x1e376c08, 0x2748774c, 0x34b0bcb5, 0x391c0cb3, 0x4ed8aa4a, 0x5b9cca4f, 0x682e6ff3,
  0x748f82ee, 0x78a5636f, 0x84c87814, 0x8cc70208, 0x90befffa, 0xa4506ceb, 0xbef9a3f7, 0xc67178f2]

/-- The eight working words `a` to `h`. -/
structure Words where
  a : UInt32
  b : UInt32
  c : UInt32
  d : UInt32
  e : UInt32
  f : UInt32
  g : UInt32
  h : UInt32
  deriving DecidableEq, Repr

/-- `struct jf_sha256`; `block` holds the first `used` bytes of the buffer. -/
structure Sha256 where
  state : Words
  bytes : UInt64
  block : Bytes
  deriving DecidableEq, Repr

def blockWord (block : Bytes) (i : ℕ) : UInt32 :=
  (block.getD (4 * i) 0).toUInt32 <<< 24 ||| (block.getD (4 * i + 1) 0).toUInt32 <<< 16 |||
    (block.getD (4 * i + 2) 0).toUInt32 <<< 8 ||| (block.getD (4 * i + 3) 0).toUInt32

/-- One more word of the message schedule (`sha256.c:31-33`). -/
def scheduleWord (w : List UInt32) (i : ℕ) : UInt32 :=
  let x := w.getD (i - 15) 0
  let y := w.getD (i - 2) 0
  w.getD (i - 16) 0 + (rotate x 7 ^^^ rotate x 18 ^^^ (x >>> 3)) + w.getD (i - 7) 0 +
    (rotate y 17 ^^^ rotate y 19 ^^^ (y >>> 10))

def schedule (block : Bytes) : List UInt32 :=
  (List.range 48).foldl (fun w i => w ++ [scheduleWord w (16 + i)])
    ((List.range 16).map (blockWord block))

/-- One round (`sha256.c:37-39`) with its constant and schedule word. -/
def round (v : Words) (k w : UInt32) : Words :=
  let t := v.h + (rotate v.e 6 ^^^ rotate v.e 11 ^^^ rotate v.e 25) +
    ((v.e &&& v.f) ^^^ (~~~v.e &&& v.g)) + k + w
  let u := (rotate v.a 2 ^^^ rotate v.a 13 ^^^ rotate v.a 22) +
    ((v.a &&& v.b) ^^^ (v.a &&& v.c) ^^^ (v.b &&& v.c))
  ⟨t + u, v.a, v.b, v.c, v.d + t, v.e, v.f, v.g⟩

/-- `transform` (`sha256.c:10`) on a full block. -/
def transform (s : Words) (block : Bytes) : Words :=
  let v := (roundConstants.zip (schedule block)).foldl (fun v kw => round v kw.1 kw.2) s
  ⟨s.a + v.a, s.b + v.b, s.c + v.c, s.d + v.d, s.e + v.e, s.f + v.f, s.g + v.g, s.h + v.h⟩

/-- `jf_sha256_init`. -/
def sha256Init : Sha256 :=
  ⟨⟨0x6a09e667, 0xbb67ae85, 0x3c6ef372, 0xa54ff53a, 0x510e527f, 0x9b05688c, 0x1f83d9ab,
    0x5be0cd19⟩, 0, []⟩

/-- The copy loop of `jf_sha256_update` (`sha256.c:57-63`); `fuel` bounds the
number of turns. -/
def updateLoop : ℕ → Words → Bytes → Bytes → Words × Bytes
  | 0, state, block, _ => (state, block)
  | fuel + 1, state, block, data =>
    if data = [] then (state, block)
    else
      let take := min (64 - block.length) data.length
      let filled := block ++ data.take take
      if filled.length = 64 then updateLoop fuel (transform state filled) [] (data.drop take)
      else updateLoop fuel state filled (data.drop take)

/-- `jf_sha256_update`. -/
def sha256Update (s : Sha256) (data : Bytes) : Sha256 :=
  let r := updateLoop (data.length + 1) s.state s.block data
  ⟨r.1, s.bytes + UInt64.ofNat data.length, r.2⟩

def hexChar (n : ℕ) : Byte := if n < 10 then UInt8.ofNat (48 + n) else UInt8.ofNat (87 + n)

def byteHex (b : Byte) : Bytes := [hexChar (b.toNat / 16), hexChar (b.toNat % 16)]

/-- The state words as big-endian bytes (`sha256.c:75-78`). -/
def wordBytes (w : UInt32) : Bytes :=
  [(w >>> 24).toUInt8, (w >>> 16).toUInt8, (w >>> 8).toUInt8, w.toUInt8]

def Words.bytes (v : Words) : Bytes :=
  wordBytes v.a ++ wordBytes v.b ++ wordBytes v.c ++ wordBytes v.d ++ wordBytes v.e ++
    wordBytes v.f ++ wordBytes v.g ++ wordBytes v.h

/-- The length in bits, big-endian (`sha256.c:71`). -/
def lengthBytes (bytes : UInt64) : Bytes :=
  let bits := bytes * 8
  [(bits >>> 56).toUInt8, (bits >>> 48).toUInt8, (bits >>> 40).toUInt8, (bits >>> 32).toUInt8,
    (bits >>> 24).toUInt8, (bits >>> 16).toUInt8, (bits >>> 8).toUInt8, bits.toUInt8]

/-- The padding loop: zero bytes until 56 are used. -/
def padLoop : ℕ → Sha256 → Sha256
  | 0, s => s
  | fuel + 1, s => if s.block.length = 56 then s else padLoop fuel (sha256Update s [0])

/-- `jf_sha256_hex`. -/
def sha256Hex (s : Sha256) : Bytes :=
  let padded := padLoop 64 (sha256Update s [0x80])
  let final := sha256Update padded (lengthBytes s.bytes)
  final.state.bytes.flatMap byteHex

/-- `jf_digest_hex` (`product_util.c:50`). -/
def digestHex (digest : Bytes) : Bytes := digest.flatMap byteHex

def unhexChar (c : Byte) : ℕ := if c ≤ 57 then c.toNat - 48 else c.toNat - 97 + 10

/-- Two hexadecimal digits a byte, read back. -/
def unhex : Bytes → Bytes
  | a :: b :: s => UInt8.ofNat (unhexChar a * 16 + unhexChar b) :: unhex s
  | _ => []

/-- `jf_digest` (`product_util.c:58`): through the hexadecimal output. -/
def digest (data : Bytes) : Bytes := unhex (sha256Hex (sha256Update sha256Init data))

/-! ### Streaming -/

/-- The buffer after one more byte. -/
def pushByte (s : Words × Bytes) (c : Byte) : Words × Bytes :=
  if s.2.length + 1 = 64 then (transform s.1 (s.2 ++ [c]), []) else (s.1, s.2 ++ [c])

theorem foldl_pushByte_partial (state : Words) (block chunk : Bytes)
    (h : block.length + chunk.length < 64) :
    chunk.foldl pushByte (state, block) = (state, block ++ chunk) := by
  induction chunk generalizing block with
  | nil => simp
  | cons c chunk ih =>
    simp only [List.length_cons] at h
    have hlt : ¬ block.length + 1 = 64 := by omega
    simp only [List.foldl_cons, pushByte, hlt, if_false]
    rw [ih _ (by simp; omega)]
    simp

theorem foldl_pushByte_full (state : Words) (block chunk : Bytes) (hne : chunk ≠ [])
    (h : block.length + chunk.length = 64) :
    chunk.foldl pushByte (state, block) = (transform state (block ++ chunk), []) := by
  obtain ⟨init, c, hc⟩ := (List.eq_nil_or_concat chunk).resolve_left hne
  rw [List.concat_eq_append] at hc
  subst hc
  rw [List.length_append, List.length_singleton] at h
  rw [List.foldl_append, foldl_pushByte_partial state block init (by omega)]
  have hfull : (block ++ init).length + 1 = 64 := by
    rw [List.length_append]
    omega
  simp only [List.foldl_cons, List.foldl_nil, pushByte, hfull, if_true, List.append_assoc]

theorem updateLoop_eq_foldl (fuel : ℕ) (state : Words) (block data : Bytes)
    (hb : block.length < 64) (hf : data.length < fuel) :
    updateLoop fuel state block data = data.foldl pushByte (state, block) := by
  induction fuel generalizing state block data with
  | zero => omega
  | succ fuel ih =>
    by_cases hd : data = []
    · simp [updateLoop, hd]
    · have hpos : 0 < data.length := List.length_pos_iff.mpr hd
      have hsplit : data = data.take (min (64 - block.length) data.length) ++
          data.drop (min (64 - block.length) data.length) := (List.take_append_drop _ _).symm
      have htake : (data.take (min (64 - block.length) data.length)).length =
          min (64 - block.length) data.length := by simp
      have hdrop : (data.drop (min (64 - block.length) data.length)).length < fuel := by
        simp only [List.length_drop]
        omega
      have hne : data.take (min (64 - block.length) data.length) ≠ [] := by
        intro he
        rw [he] at htake
        simp only [List.length_nil] at htake
        omega
      conv_rhs => rw [hsplit, List.foldl_append]
      simp only [updateLoop, hd, if_false, List.length_append, htake]
      by_cases hfull : block.length + min (64 - block.length) data.length = 64
      · rw [if_pos hfull, ih _ _ _ (by simp) hdrop,
          foldl_pushByte_full state block _ hne (by rw [htake]; exact hfull)]
      · rw [if_neg hfull, ih _ _ _ (by simp only [List.length_append, htake]; omega) hdrop,
          foldl_pushByte_partial state block _ (by rw [htake]; omega)]

theorem foldl_pushByte_block (state : Words) (block data : Bytes) (hb : block.length < 64) :
    (data.foldl pushByte (state, block)).2.length < 64 := by
  induction data generalizing state block with
  | nil => exact hb
  | cons c data ih =>
    rw [List.foldl_cons]
    by_cases hf : block.length + 1 = 64
    · simp only [pushByte, hf, if_true]
      exact ih _ _ (by simp)
    · simp only [pushByte, hf, if_false]
      exact ih _ _ (by simp only [List.length_append, List.length_cons, List.length_nil]; omega)

/-- A context between updates never holds a full block. -/
def Sha256.Ready (s : Sha256) : Prop := s.block.length < 64

theorem sha256Init_ready : sha256Init.Ready := by
  simp [Sha256.Ready, sha256Init]

theorem sha256Update_eq (s : Sha256) (data : Bytes) (h : s.Ready) :
    sha256Update s data =
      ⟨(data.foldl pushByte (s.state, s.block)).1, s.bytes + UInt64.ofNat data.length,
        (data.foldl pushByte (s.state, s.block)).2⟩ := by
  simp only [sha256Update]
  rw [updateLoop_eq_foldl _ _ _ _ h (by omega)]

theorem sha256Update_ready (s : Sha256) (data : Bytes) (h : s.Ready) :
    (sha256Update s data).Ready := by
  rw [sha256Update_eq s data h]
  exact foldl_pushByte_block _ _ _ h

/-- Updates may be split anywhere. -/
theorem sha256Update_append (s : Sha256) (a b : Bytes) (h : s.Ready) :
    sha256Update s (a ++ b) = sha256Update (sha256Update s a) b := by
  rw [sha256Update_eq _ b (sha256Update_ready s a h), sha256Update_eq s a h,
    sha256Update_eq s (a ++ b) h]
  simp only [List.foldl_append, List.length_append, UInt64.ofNat_add, UInt64.add_assoc]

theorem sha256Update_nil {s : Sha256} (h : s.Ready) : sha256Update s [] = s := by
  rw [sha256Update_eq s [] h]
  simp

/-- Updates one after the other are one update. -/
theorem foldl_sha256Update (s : Sha256) (hs : s.Ready) (parts : List Bytes) :
    parts.foldl sha256Update s = sha256Update s parts.flatten := by
  induction parts generalizing s with
  | nil => rw [List.foldl_nil, List.flatten_nil, sha256Update_nil hs]
  | cons p parts ih =>
    rw [List.foldl_cons, ih _ (sha256Update_ready s p hs), List.flatten_cons,
      sha256Update_append s p _ hs]

/-! ### Shape of the output -/

theorem Words.bytes_length (v : Words) : v.bytes.length = 32 := by
  simp only [Words.bytes, wordBytes, List.length_append, List.length_cons, List.length_nil]

theorem unhexChar_hexChar {n : ℕ} (h : n < 16) : unhexChar (hexChar n) = n := by
  have hall : ∀ n : Fin 16, unhexChar (hexChar n.val) = n.val := by decide
  exact hall ⟨n, h⟩

theorem unhex_byteHex (b : Byte) (s : Bytes) : unhex (byteHex b ++ s) = b :: unhex s := by
  have hb := b.toNat_lt
  simp only [byteHex, List.cons_append, List.nil_append, unhex]
  rw [unhexChar_hexChar (by omega), unhexChar_hexChar (by omega), Nat.div_add_mod',
    UInt8.ofNat_toNat]

theorem unhex_digestHex (s : Bytes) : unhex (digestHex s) = s := by
  induction s with
  | nil => rfl
  | cons b s ih => rw [digestHex, List.flatMap_cons, unhex_byteHex, ← digestHex, ih]

/-- Every hexadecimal digest is the text of its 32 bytes. -/
theorem sha256Hex_eq (s : Sha256) :
    ∃ bytes : Bytes, bytes.length = 32 ∧ sha256Hex s = digestHex bytes := by
  refine ⟨(sha256Update (padLoop 64 (sha256Update s [0x80])) (lengthBytes s.bytes)).state.bytes,
    Words.bytes_length _, ?_⟩
  simp only [sha256Hex, digestHex]

theorem digest_length (data : Bytes) : (digest data).length = 32 := by
  obtain ⟨bytes, hlen, heq⟩ := sha256Hex_eq (sha256Update sha256Init data)
  rw [digest, heq, unhex_digestHex, hlen]

theorem digestHex_digest (data : Bytes) :
    digestHex (digest data) = sha256Hex (sha256Update sha256Init data) := by
  obtain ⟨bytes, _, heq⟩ := sha256Hex_eq (sha256Update sha256Init data)
  rw [digest, heq, unhex_digestHex]

def isLowerHex (c : Byte) : Bool := (48 ≤ c && c ≤ 57) || (97 ≤ c && c ≤ 102)

theorem digestHex_length (s : Bytes) : (digestHex s).length = 2 * s.length := by
  induction s with
  | nil => rfl
  | cons b s ih =>
    rw [digestHex, List.flatMap_cons, List.length_append, ← digestHex, ih]
    simp only [byteHex, List.length_cons, List.length_nil]
    omega

theorem isLowerHex_hexChar {n : ℕ} (h : n < 16) : isLowerHex (hexChar n) = true := by
  have hall : ∀ n : Fin 16, isLowerHex (hexChar n.val) = true := by decide
  exact hall ⟨n, h⟩

theorem digestHex_lowerHex (s : Bytes) : ∀ c ∈ digestHex s, isLowerHex c = true := by
  intro c hc
  obtain ⟨b, _, hb⟩ := List.mem_flatMap.mp hc
  have hlt := b.toNat_lt
  simp only [byteHex, List.mem_cons, List.not_mem_nil, or_false] at hb
  rcases hb with rfl | rfl
  · exact isLowerHex_hexChar (by omega)
  · exact isLowerHex_hexChar (by omega)

end JaroFilter
