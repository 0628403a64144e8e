import JaroFilter.Lib.Bytes

/-!
# SHA-256 as FIPS 180-4 states it

Words are bit vectors, the message schedule is the recurrence of the standard,
the constants are roots of primes, and the message is padded as a whole before
it is cut into blocks. Nothing here streams or buffers.
-/

namespace JaroFilter.Lib.SecureHash

abbrev Word := BitVec 32

/-! ### Functions (section 4.1.2) -/

def ch (x y z : Word) : Word := (x &&& y) ^^^ (~~~x &&& z)

def maj (x y z : Word) : Word := (x &&& y) ^^^ (x &&& z) ^^^ (y &&& z)

def bigSigma0 (x : Word) : Word := x.rotateRight 2 ^^^ x.rotateRight 13 ^^^ x.rotateRight 22

def bigSigma1 (x : Word) : Word := x.rotateRight 6 ^^^ x.rotateRight 11 ^^^ x.rotateRight 25

def smallSigma0 (x : Word) : Word := x.rotateRight 7 ^^^ x.rotateRight 18 ^^^ (x >>> 3)

def smallSigma1 (x : Word) : Word := x.rotateRight 17 ^^^ x.rotateRight 19 ^^^ (x >>> 10)

/-! ### Constants (sections 4.2.2 and 5.3.3) -/

/-- The largest number with `r`-th power at most `n`, one binary digit after the
other from the `k`-th down. -/
def rootBits (r n : ℕ) : ℕ → ℕ → ℕ
  | 0, x => x
  | k + 1, x => rootBits r n k (if (x + 2 ^ k) ^ r ≤ n then x + 2 ^ k else x)

/-- The first 32 bits of the fractional part of the `r`-th root of `p`. -/
def rootFraction (r p : ℕ) : Word := BitVec.ofNat 32 (rootBits r (p * 2 ^ (32 * r)) 40 0)

def primes : List ℕ :=
  (List.range 312).filter fun n => 2 ≤ n && (List.range n).all fun d => d < 2 || n % d != 0

/-- Cube roots of the first sixty-four primes. -/
def roundConstant (t : ℕ) : Word := rootFraction 3 (primes.getD t 0)

/-- The eight words of the hash value, and the working variables. -/
structure State where
  a : Word
  b : Word
  c : Word
  d : Word
  e : Word
  f : Word
  g : Word
  h : Word
  deriving DecidableEq, Repr

/-- Square roots of the first eight primes. -/
def initial : State :=
  let word := fun i => rootFraction 2 (primes.getD i 0)
  ⟨word 0, word 1, word 2, word 3, word 4, word 5, word 6, word 7⟩

/-! ### Blocks (section 5) -/

/-- A number in `k` bytes, most significant first. -/
def bigEndian (k n : ℕ) : Bytes := (List.range k).map fun i => UInt8.ofNat (n / 256 ^ (k - 1 - i))

/-- The number of zero bytes that bring the message and its end marker to eight
bytes before a block boundary. -/
def zeros (n : ℕ) : ℕ := (119 - n % 64) % 64

/-- The padded message: the end marker, the zeros, and the length in bits. -/
def pad (m : Bytes) : Bytes :=
  m ++ 0x80 :: (List.replicate (zeros m.length) 0 ++ bigEndian 8 (8 * m.length))

def block (m : Bytes) (i : ℕ) : Bytes := (m.drop (64 * i)).take 64

/-- The `t`-th word of a block, most significant byte first. -/
def blockWord (b : Bytes) (t : ℕ) : Word :=
  BitVec.ofNat 32 (((b.getD (4 * t) 0).toNat * 256 + (b.getD (4 * t + 1) 0).toNat) * 256 ^ 2 +
    ((b.getD (4 * t + 2) 0).toNat * 256 + (b.getD (4 * t + 3) 0).toNat))

/-! ### Computation (section 6.2.2) -/

/-- The message schedule of a block. -/
def schedule (b : Bytes) (t : ℕ) : Word :=
  if t < 16 then blockWord b t
  else smallSigma1 (schedule b (t - 2)) + schedule b (t - 7) + smallSigma0 (schedule b (t - 15)) +
    schedule b (t - 16)
termination_by t

/-- One turn of step 3. -/
def step (v : State) (k w : Word) : State :=
  let t1 := v.h + bigSigma1 v.e + ch v.e v.f v.g + k + w
  let t2 := bigSigma0 v.a + maj v.a v.b v.c
  ⟨t1 + t2, v.a, v.b, v.c, v.d + t1, v.e, v.f, v.g⟩

/-- One block: steps 1 to 4. -/
def compress (s : State) (b : Bytes) : State :=
  let v := (List.range 64).foldl (fun v t => step v (roundConstant t) (schedule b t)) s
  ⟨v.a + s.a, v.b + s.b, v.c + s.c, v.d + s.d, v.e + s.e, v.f + s.f, v.g + s.g, v.h + s.h⟩

def State.bytes (s : State) : Bytes :=
  [s.a, s.b, s.c, s.d, s.e, s.f, s.g, s.h].flatMap fun w => bigEndian 4 w.toNat

/-- The 32 bytes of the digest. -/
def sha256 (m : Bytes) : Bytes :=
  ((List.range ((pad m).length / 64)).foldl (fun s i => compress s (block (pad m) i)) initial).bytes

/-- Two lower-case hexadecimal digits a byte. -/
def hexText (s : Bytes) : Bytes :=
  s.flatMap fun b => [b.toNat / 16, b.toNat % 16].map fun d => UInt8.ofNat (Nat.digitChar d).toNat

/-! ### Blocks one after the other -/

theorem bigEndian_length (k n : ℕ) : (bigEndian k n).length = k := by simp [bigEndian]

theorem pad_length (m : Bytes) : (pad m).length = m.length + 1 + zeros m.length + 8 := by
  simp only [pad, List.length_append, List.length_cons, List.length_replicate, bigEndian_length]
  omega

theorem pad_aligned (m : Bytes) : (pad m).length % 64 = 0 := by
  rw [pad_length, zeros]
  omega

end JaroFilter.Lib.SecureHash
