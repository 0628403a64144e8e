import JaroFilter.Lib.Access
import JaroFilter.Products.Cache

/-!
# The cache as memory (`cache.c:150-320`)

`jf_cache_validate` as it walks the bytes: offsets, views into them and every
read checked against their bounds. It never leaves them, whatever they are, and
decides as the validator over lists of fields.
-/

namespace JaroFilter

open Lib Access

/-! ### Views -/

/-- `struct view`, the pointer as an offset into the cache. -/
structure CacheView where
  pos : ℕ := 0
  size : ℕ := 0
  deriving DecidableEq, Repr

def CacheView.text (data : Bytes) (v : CacheView) : Bytes := (data.drop v.pos).take v.size

/-- The view does not reach behind the bytes. -/
def CacheView.Inside (data : Bytes) (v : CacheView) : Prop := v.pos + v.size ≤ data.length

/-- `equal` (`cache.c:157`). -/
def equalAt (data : Bytes) (v : CacheView) (s : Bytes) : Access Bool :=
  if v.size = s.length then bytesAt data v.pos v.size >>= fun t => pure (t == s) else pure false

/-- `prefix` (`cache.c:162`). -/
def prefixAt (data : Bytes) (v : CacheView) (s : Bytes) : Access Bool :=
  if s.length ≤ v.size then bytesAt data v.pos s.length >>= fun t => pure (t == s) else pure false

/-- `compare` (`cache.c:180`): the shorter size first, then the sizes. -/
def compareAt (data : Bytes) (a b : CacheView) : Access Ordering := do
  let n := min a.size b.size
  let c ← if n = 0 then pure .eq else do
    let s ← bytesAt data a.pos n
    let t ← bytesAt data b.pos n
    pure (strcmp s t)
  pure (c.then (compare a.size b.size))

/-- The digit loop of `decimal` (`cache.c:191-195`); `refused` is its 0. -/
def decimalLoopAt (data : Bytes) : ℕ → ℕ → ℕ → Access ℕ
  | _, 0, n => .value n
  | pos, k + 1, n => do
    let c ← byteAt data pos
    if c < 48 ∨ 57 < c ∨ (sizeMax - (c.toNat - 48)) / 10 < n then .refused
    else decimalLoopAt data (pos + 1) k (n * 10 + (c.toNat - 48))

/-- `decimal` (`cache.c:187`). -/
def decimalAt (data : Bytes) (v : CacheView) : Access ℕ :=
  if v.size = 0 then .refused
  else if 1 < v.size then do
    let c ← byteAt data v.pos
    if c = 48 then .refused else decimalLoopAt data v.pos v.size 0
  else decimalLoopAt data v.pos v.size 0

/-- `for (...) if (!p(data[i])) return 0;` -/
def allAt (data : Bytes) (p : Byte → Bool) : ℕ → ℕ → Access Bool
  | _, 0 => .value true
  | pos, k + 1 => do
    let c ← byteAt data pos
    if p c then allAt data p (pos + 1) k else pure false

/-- The number of bytes before the first that is `stop`. -/
def findAt (data : Bytes) (stop : Byte) : ℕ → ℕ → Access ℕ
  | _, 0 => .value 0
  | pos, k + 1 => do
    let c ← byteAt data pos
    if c = stop then pure 0
    else do
      let n ← findAt data stop (pos + 1) k
      pure (n + 1)

/-- `id` (`cache.c:199`). -/
def idAt (data : Bytes) (v : CacheView) : Access Bool := do
  let builtin ← either (equalAt data v (cstr "builtin:bounce"))
    (either (equalAt data v (cstr "builtin:spam")) (equalAt data v (cstr "builtin:unsorted")))
  if builtin then pure true
  else do
    let n ← findAt data 58 v.pos v.size
    if n = v.size ∨ v.size - n ≠ 65 then pure false
    else do
      let named ← either (equalAt data ⟨v.pos, n⟩ (cstr "r"))
        (either (equalAt data ⟨v.pos, n⟩ (cstr "known"))
          (either (equalAt data ⟨v.pos, n⟩ (cstr "blacklist"))
            (equalAt data ⟨v.pos, n⟩ (cstr "own"))))
      if named then allAt data isLowerHex (v.pos + (n + 1)) (v.size - (n + 1)) else pure false

/-- The continuation bytes of a sequence (`policy.c:103-106`): `n` of them onto
the bits of the lead byte; `refused` is `return 0`. -/
def contAt (data : Bytes) : ℕ → ℕ → ℕ → Access ℕ
  | _, 0, c => .value c
  | pos, n + 1, c => do
    let a ← byteAt data pos
    if isCont a then contAt data (pos + 1) n (addCont c a) else .refused

/-- The lead bytes of `jf_valid_utf8`: how many bytes follow, the least value
of that length, and the lead's own bits. -/
def leadOf (c : Byte) : Option (ℕ × ℕ × ℕ) :=
  if 0xc2 ≤ c ∧ c ≤ 0xdf then some (1, 0x80, c.toNat &&& 31)
  else if 0xe0 ≤ c ∧ c ≤ 0xef then some (2, 0x800, c.toNat &&& 15)
  else if 0xf0 ≤ c ∧ c ≤ 0xf4 then some (3, 0x10000, c.toNat &&& 7)
  else none

/-- `jf_valid_utf8` (`policy.c:90`) from an offset, with `k` bytes left;
`refused` is `return 0`. -/
def utf8At (data : Bytes) (pos k : ℕ) : Access Unit :=
  match k with
  | 0 => .value ()
  | k + 1 => do
    let c ← byteAt data pos
    if c = 0 then .refused
    else if c < 128 then utf8At data (pos + 1) k
    else match leadOf c with
      | none => .refused
      | some (n, least, bits) =>
        if k < n then .refused
        else do
          let c ← contAt data (pos + 1) n bits
          if scalarFrom least c then utf8At data (pos + 1 + n) (k - n) else .refused
termination_by k

/-- A component of a relative path that `safe_text` refuses. -/
def badComponentAt (data : Bytes) (start n : ℕ) : Access Bool :=
  if n = 0 then pure true
  else if n = 1 then byteAt data start >>= fun c => pure (c == 46)
  else if n = 2 then bytesAt data start 2 >>= fun s => pure (s == [46, 46])
  else pure false

/-- The component loop of `safe_text` (`cache.c:172-176`). -/
def componentsAt (data : Bytes) (start : ℕ) : ℕ → ℕ → Access Bool
  | pos, 0 => badComponentAt data start (pos - start) >>= fun b => pure (!b)
  | pos, k + 1 => do
    let c ← byteAt data pos
    if c = 47 then do
      let b ← badComponentAt data start (pos - start)
      if b then pure false else componentsAt data (pos + 1) (pos + 1) k
    else componentsAt data start (pos + 1) k

/-- `safe_text` (`cache.c:167`); `refused` is its 0. -/
def safeTextAt (data : Bytes) (v : CacheView) (relative : Bool) : Access Unit := do
  need (v.size != 0)
  utf8At data v.pos v.size
  if relative then do
    let c ← byteAt data v.pos
    need (c != 47)
    let plain ← allAt data (fun c => !isControl c) v.pos v.size
    need plain
    let ok ← componentsAt data v.pos v.pos v.size
    need ok
  else do
    let plain ← allAt data (fun c => !isControl c) v.pos v.size
    need plain

/-! ### What they decide -/

section Inside

variable {data : Bytes}

theorem equalAt_eq {v : CacheView} (h : v.Inside data) (s : Bytes) :
    equalAt data v s = .value (v.text data == s) := by
  have hlen := window_length h
  simp only [equalAt]
  by_cases hs : v.size = s.length
  · rw [if_pos hs, bytesAt_eq h]
    rfl
  · rw [if_neg hs]
    have hne : ¬ v.text data = s := by
      intro he
      rw [← he] at hs
      exact hs hlen.symm
    simp [hne]

theorem prefixAt_eq {v : CacheView} (h : v.Inside data) (s : Bytes) :
    prefixAt data v s = .value (s.isPrefixOf (v.text data)) := by
  have hlen : (v.text data).length = v.size := window_length h
  simp only [prefixAt]
  by_cases hs : s.length ≤ v.size
  · have hin : v.pos + s.length ≤ data.length := by
      simp only [CacheView.Inside] at h
      omega
    have htake : (v.text data).take s.length = (data.drop v.pos).take s.length := by
      rw [CacheView.text, List.take_take, Nat.min_eq_left hs]
    rw [if_pos hs, bytesAt_eq hin, ← htake, value_bind, pure_eq]
    congr 1
    rw [Bool.eq_iff_iff, beq_iff_eq, List.isPrefixOf_iff_prefix, List.prefix_iff_eq_take]
    exact eq_comm
  · rw [if_neg hs, pure_eq]
    congr 1
    symm
    rw [Bool.eq_false_iff]
    intro hp
    have hle := (List.isPrefixOf_iff_prefix.mp hp).length_le
    omega

/-- Comparing a common length first and the lengths then is comparing. -/
theorem strcmp_take (a b : Bytes) : strcmp a b =
    (strcmp (a.take (min a.length b.length)) (b.take (min a.length b.length))).then
      (compare a.length b.length) := by
  simp only [strcmp]
  induction a generalizing b with
  | nil =>
    cases b with
    | nil => rfl
    | cons d b => simp [Nat.compare_eq_lt.mpr]
  | cons c a ih =>
    cases b with
    | nil => simp [Nat.compare_eq_gt.mpr]
    | cons d b =>
      have hcmp : compare (a.length + 1) (b.length + 1) = compare a.length b.length := by
        simp only [Nat.compare_eq_ite_lt, Nat.add_lt_add_iff_right]
      simp only [List.length_cons, Nat.succ_min_succ, List.take_succ_cons, List.compare_cons_cons,
        ih b, hcmp, Ordering.then_assoc]

theorem compareAt_eq {v w : CacheView} (hv : v.Inside data) (hw : w.Inside data) :
    compareAt data v w = .value (strcmp (v.text data) (w.text data)) := by
  have hvl : (v.text data).length = v.size := window_length hv
  have hwl : (w.text data).length = w.size := window_length hw
  simp only [CacheView.Inside] at hv hw
  rw [strcmp_take, hvl, hwl]
  simp only [compareAt]
  by_cases hn : min v.size w.size = 0
  · simp [hn, strcmp]
  · have h1 : v.pos + min v.size w.size ≤ data.length := by omega
    have h2 : w.pos + min v.size w.size ≤ data.length := by omega
    have ht1 : (v.text data).take (min v.size w.size) = (data.drop v.pos).take (min v.size w.size) := by
      rw [CacheView.text, List.take_take, Nat.min_eq_left (Nat.min_le_left _ _)]
    have ht2 : (w.text data).take (min v.size w.size) = (data.drop w.pos).take (min v.size w.size) := by
      rw [CacheView.text, List.take_take, Nat.min_eq_left (Nat.min_le_right _ _)]
    simp only [hn, if_false, bytesAt_eq h1, bytesAt_eq h2, value_bind, pure_eq, ht1, ht2]

theorem decimalLoopAt_eq {pos k : ℕ} (h : pos + k ≤ data.length) (n : ℕ) :
    decimalLoopAt data pos k n = ofOption (decimalLoop n ((data.drop pos).take k)) := by
  induction k generalizing pos n with
  | zero => rfl
  | succ k ih =>
    obtain ⟨c, hc, hw⟩ := window_cons h
    rw [hw]
    simp only [decimalLoopAt, hc, value_bind, decimalLoop]
    split
    · rfl
    · exact ih (by omega) _

theorem decimalAt_eq {v : CacheView} (h : v.Inside data) :
    decimalAt data v = ofOption (decimal (v.text data)) := by
  have hlen : (v.text data).length = v.size := window_length h
  have hloop := decimalLoopAt_eq h 0
  rw [decimalAt, decimal, hlen]
  by_cases h0 : v.size = 0
  · have hnil : v.text data = [] := List.eq_nil_of_length_eq_zero (by omega)
    simp [h0, hnil]
  · have hne : v.text data ≠ [] := by
      intro he
      rw [he] at hlen
      exact h0 hlen.symm
    rw [if_neg h0]
    by_cases h1 : 1 < v.size
    · obtain ⟨k, hk⟩ : ∃ k, v.size = k + 1 := ⟨v.size - 1, by omega⟩
      have hin : v.pos + (k + 1) ≤ data.length := hk ▸ h
      obtain ⟨c, hc, hw⟩ := window_cons hin
      have hhead : (v.text data).head? = some c := by
        rw [CacheView.text, hk, hw]
        rfl
      rw [if_pos h1, hc, value_bind]
      by_cases h48 : c = 48
      · rw [if_pos h48, if_pos (Or.inr ⟨h1, by rw [hhead, h48]⟩)]
        rfl
      · rw [if_neg h48, if_neg (by simp [hne, hhead, h48]), hloop]
        rfl
    · rw [if_neg h1, if_neg (by simp [hne, h1]), hloop]
      rfl

theorem allAt_eq (p : Byte → Bool) {pos k : ℕ} (h : pos + k ≤ data.length) :
    allAt data p pos k = .value (((data.drop pos).take k).all p) := by
  induction k generalizing pos with
  | zero => rfl
  | succ k ih =>
    obtain ⟨c, hc, hw⟩ := window_cons h
    rw [hw]
    simp only [allAt, hc, value_bind, List.all_cons]
    cases hp : p c
    · rfl
    · simpa using ih (by omega)

theorem findAt_eq (stop : Byte) {pos k : ℕ} (h : pos + k ≤ data.length) :
    findAt data stop pos k = .value (((data.drop pos).take k).takeWhile (· != stop)).length := by
  induction k generalizing pos with
  | zero => rfl
  | succ k ih =>
    obtain ⟨c, hc, hw⟩ := window_cons h
    rw [hw]
    simp only [findAt, hc, value_bind]
    by_cases hs : c = stop
    · simp [hs]
    · simp [hs, ih (show pos + 1 + k ≤ data.length by omega)]

theorem idAt_eq {v : CacheView} (h : v.Inside data) :
    idAt data v = .value (cacheId (v.text data)) := by
  have hlen : (v.text data).length = v.size := window_length h
  have hfind : findAt data 58 v.pos v.size =
      .value ((v.text data).takeWhile (· != 58)).length := findAt_eq 58 h
  simp only [CacheView.Inside] at h
  obtain ⟨before, hb⟩ : ∃ before, before = (v.text data).takeWhile (· != 58) := ⟨_, rfl⟩
  have hpre : before = (v.text data).take before.length := by
    rw [hb]
    exact List.prefix_iff_eq_take.mp (List.takeWhile_prefix _)
  have hle : before.length ≤ v.size := by
    rw [← hlen, hb]
    exact (List.takeWhile_prefix _).length_le
  have hin : (⟨v.pos, before.length⟩ : CacheView).Inside data := by
    simp only [CacheView.Inside]
    omega
  have htext : (⟨v.pos, before.length⟩ : CacheView).text data = before := by
    calc (data.drop v.pos).take before.length
        = ((data.drop v.pos).take v.size).take before.length := by
          rw [List.take_take, Nat.min_eq_left hle]
      _ = before := hpre.symm
  simp only [idAt, equalAt_eq h, either_value, value_bind, hfind, ← hb, cacheId, hlen,
    equalAt_eq hin, htext]
  by_cases hbuiltin : v.text data = cstr "builtin:bounce" ∨ v.text data = cstr "builtin:spam" ∨
      v.text data = cstr "builtin:unsorted"
  · rw [if_pos hbuiltin, if_pos (by simpa using hbuiltin)]
    rfl
  · rw [if_neg hbuiltin, if_neg (by simpa using hbuiltin)]
    by_cases hsize : before.length = v.size ∨ v.size - before.length ≠ 65
    · rw [if_pos hsize, if_pos hsize]
      rfl
    · rw [if_neg hsize, if_neg hsize]
      have hrest : (data.drop (v.pos + (before.length + 1))).take (v.size - (before.length + 1)) =
          (v.text data).drop (before.length + 1) := by
        rw [CacheView.text, List.drop_take, List.drop_drop]
      have hall : allAt data isLowerHex _ _ = _ := allAt_eq isLowerHex
        (show v.pos + (before.length + 1) + (v.size - (before.length + 1)) ≤ data.length by omega)
      rw [hrest] at hall
      cases hn : (before == cstr "r" || (before == cstr "known" ||
        (before == cstr "blacklist" || before == cstr "own")))
      · simp only [Bool.false_eq_true, if_false, pure_eq]
        simp only [Bool.or_assoc, hn, Bool.false_and]
      · simp only [if_true, hall]
        simp only [Bool.or_assoc, hn, Bool.true_and]

/-- The continuation bytes as a fold. -/
def contLoop : ℕ → Bytes → Option ℕ
  | c, [] => some c
  | c, a :: s => if isCont a then contLoop (addCont c a) s else none

theorem contAt_eq {pos n : ℕ} (h : pos + n ≤ data.length) (c : ℕ) :
    contAt data pos n c = ofOption (contLoop c ((data.drop pos).take n)) := by
  induction n generalizing pos c with
  | zero => rfl
  | succ n ih =>
    obtain ⟨a, ha, hw⟩ := window_cons h
    rw [hw]
    simp only [contAt, ha, value_bind, contLoop]
    split
    · exact ih (by omega) _
    · rfl

/-- `jf_valid_utf8` on a list, the sequence read through its lead byte. -/
theorem validUtf8_lead {c : Byte} (h0 : c ≠ 0) (h128 : ¬ c < 128) (s : Bytes) :
    validUtf8 (c :: s) =
      match leadOf c with
      | none => false
      | some (n, least, bits) =>
        if s.length < n then false
        else match contLoop bits (s.take n) with
          | none => false
          | some c => scalarFrom least c && validUtf8 (s.drop n) := by
  rw [validUtf8_cons, if_neg h0, if_neg h128, leadOf]
  by_cases h2 : 0xc2 ≤ c ∧ c ≤ 0xdf
  · rw [if_pos h2, if_pos h2]
    match s with
    | [] => rfl
    | a :: s => by_cases ha : isCont a <;> simp [contLoop, ha]
  · rw [if_neg h2, if_neg h2]
    by_cases h3 : 0xe0 ≤ c ∧ c ≤ 0xef
    · rw [if_pos h3, if_pos h3]
      match s with
      | [] => rfl
      | [a] => rfl
      | a :: b :: s => by_cases ha : isCont a <;> by_cases hb : isCont b <;> simp [contLoop, ha, hb]
    · rw [if_neg h3, if_neg h3]
      by_cases h4 : 0xf0 ≤ c ∧ c ≤ 0xf4
      · rw [if_pos h4, if_pos h4]
        match s with
        | [] => rfl
        | [a] => rfl
        | [a, b] => rfl
        | a :: b :: d :: s =>
          by_cases ha : isCont a <;> by_cases hb : isCont b <;> by_cases hd : isCont d <;>
            simp [contLoop, ha, hb, hd]
      · rw [if_neg h4, if_neg h4]

theorem utf8At_eq {pos k : ℕ} (h : pos + k ≤ data.length) :
    utf8At data pos k = need (validUtf8 ((data.drop pos).take k)) := by
  induction k using Nat.strong_induction_on generalizing pos with
  | _ k ih =>
    cases k with
    | zero =>
      rw [utf8At]
      rfl
    | succ k =>
      obtain ⟨c, hc, hw⟩ := window_cons h
      have hlen : ((data.drop (pos + 1)).take k).length = k := window_length (by omega)
      rw [hw, utf8At, hc, value_bind]
      by_cases h0 : c = 0
      · rw [if_pos h0, validUtf8_cons, if_pos h0]
        rfl
      · rw [if_neg h0]
        by_cases h128 : c < 128
        · rw [if_pos h128, ih k (by omega) (by omega), validUtf8_cons, if_neg h0, if_pos h128]
        · rw [if_neg h128, validUtf8_lead h0 h128, hlen]
          cases leadOf c with
          | none => rfl
          | some t =>
            obtain ⟨n, least, bits⟩ := t
            simp only
            by_cases hn : k < n
            · rw [if_pos hn, if_pos hn]
              rfl
            · have htake : ((data.drop (pos + 1)).take k).take n = (data.drop (pos + 1)).take n := by
                rw [List.take_take, Nat.min_eq_left (by omega)]
              have hdrop : ((data.drop (pos + 1)).take k).drop n =
                  (data.drop (pos + 1 + n)).take (k - n) := by
                rw [List.drop_take, List.drop_drop]
              rw [if_neg hn, if_neg hn, contAt_eq (by omega), htake, hdrop]
              cases contLoop bits ((data.drop (pos + 1)).take n) with
              | none => rfl
              | some c =>
                simp only [ofOption_some, value_bind]
                cases hs : scalarFrom least c
                · rfl
                · rw [if_pos rfl, ih (k - n) (by omega) (by omega), Bool.true_and]

theorem badComponentAt_eq {start n : ℕ} (h : start + n ≤ data.length) :
    badComponentAt data start n = .value (badComponent ((data.drop start).take n)) := by
  have hlen := window_length h
  simp only [badComponentAt]
  by_cases h0 : n = 0
  · subst h0
    rfl
  · rw [if_neg h0]
    by_cases h1 : n = 1
    · subst h1
      obtain ⟨c, hc, hw⟩ := window_cons (show start + (0 + 1) ≤ data.length from h)
      have hw : (data.drop start).take 1 = [c] := by simpa using hw
      rw [if_pos rfl, hc, hw]
      simp [badComponent]
    · rw [if_neg h1]
      by_cases h2 : n = 2
      · subst h2
        obtain ⟨a, s, hs⟩ : ∃ a s, (data.drop start).take 2 = a :: s :=
          List.exists_cons_of_length_pos (by omega)
        obtain ⟨b, t, ht⟩ : ∃ b t, s = b :: t :=
          List.exists_cons_of_length_pos (by
            rw [hs, List.length_cons] at hlen
            omega)
        rw [if_pos rfl, bytesAt_eq h, hs, ht]
        simp [badComponent]
      · rw [if_neg h2, pure_eq]
        congr 1
        symm
        simp only [badComponent, Bool.or_eq_false_iff, beq_eq_false_iff_ne]
        refine ⟨⟨?_, ?_⟩, ?_⟩ <;>
        · intro he
          rw [he] at hlen
          simp only [List.length_nil, List.length_cons] at hlen
          omega

theorem componentsAt_eq {start pos k : ℕ} (hs : start ≤ pos) (h : pos + k ≤ data.length) :
    componentsAt data start pos k =
      .value (componentsOk ((data.drop start).take (pos - start)) ((data.drop pos).take k)) := by
  have hbad : badComponentAt data start (pos - start) =
      .value (badComponent ((data.drop start).take (pos - start))) := badComponentAt_eq (by omega)
  induction k generalizing start pos with
  | zero =>
    rw [componentsAt, hbad]
    rfl
  | succ k ih =>
    obtain ⟨c, hc, hw⟩ := window_cons h
    rw [hw]
    simp only [componentsAt, hc, value_bind, componentsOk]
    by_cases h47 : c = 47
    · rw [if_pos h47, if_pos h47, hbad, value_bind]
      cases badComponent ((data.drop start).take (pos - start))
      · have hrest := ih (le_refl (pos + 1)) (by omega) (badComponentAt_eq (by omega))
        simpa using hrest
      · rfl
    · rw [if_neg h47, if_neg h47, ih (by omega) (by omega) (badComponentAt_eq (by omega))]
      have hlt : pos - start < (data.drop start).length := by
        rw [List.length_drop]
        omega
      have hget : (data.drop start)[pos - start]? = some c := by
        have hcons : (data.drop pos).take (k + 1) = c :: (data.drop (pos + 1)).take k := hw
        have h0 : ((data.drop pos).take (k + 1))[0]? = some c := by
          rw [hcons]
          rfl
        rw [List.getElem?_take_of_lt (by omega), List.getElem?_drop] at h0
        rw [List.getElem?_drop, show start + (pos - start) = pos + 0 by omega]
        exact h0
      rw [show pos + 1 - start = pos - start + 1 by omega, List.take_add_one, hget]
      rfl

theorem safeTextAt_eq {v : CacheView} (h : v.Inside data) (relative : Bool) :
    safeTextAt data v relative = need (safeText (v.text data) relative) := by
  have hlen : (v.text data).length = v.size := window_length h
  simp only [CacheView.Inside] at h
  simp only [safeTextAt, safeText, need_bind]
  cases hv : v.size with
  | zero =>
    have hnil : v.text data = [] := List.eq_nil_of_length_eq_zero (by omega)
    simp [hnil, need]
  | succ k =>
    rw [hv] at h hlen
    obtain ⟨c, hc, hw⟩ := window_cons h
    have htext : v.text data = c :: (data.drop (v.pos + 1)).take k := by rw [CacheView.text, hv, hw]
    have hwin : (data.drop v.pos).take (k + 1) = v.text data := by rw [CacheView.text, hv]
    have hne : (v.text data != []) = true := by simp [htext]
    have hhead : (v.text data).head? = some c := by simp [htext]
    have hcomp := componentsAt_eq (le_refl v.pos) h
    rw [Nat.sub_self, List.take_zero] at hcomp
    rw [utf8At_eq h, allAt_eq _ h, hcomp, hwin, hne, hhead]
    simp only [need_bind, hc, value_bind, Bool.true_and]
    cases validUtf8 (v.text data)
    · rfl
    · cases relative
      · simp
      · by_cases h47 : c = 47
        · simp [h47, need]
        · simp only [need]
          cases (v.text data).all fun c => !isControl c <;> simp [h47]

end Inside

end JaroFilter
