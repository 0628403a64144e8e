import JaroFilter.Products.Restore
import JaroFilter.Products.Views

/-!
# Hostile cache bytes (`cache.c:212-354`, `policy.c:616-682`)

The validator, the unguarded second walk and the reconstruction, all over the
bytes themselves. Nothing is read outside them, no array is overrun, and what an
accepted cache restores has its builtins.
-/

namespace JaroFilter

open Lib Access

/-! ### The validator over the bytes -/

/-- `size-pos` in `size_t`, which wraps when `pos` is behind the end. -/
def remaining (data : Bytes) (pos : ℕ) : ℕ :=
  if pos ≤ data.length then data.length - pos else data.length + (sizeMax + 1) - pos

/-- The fields that may hold a NUL (`cache.c:244`). -/
def binaryField (tag : Byte) (j : ℕ) : Bool := (tag == 68 && 3 ≤ j) || (tag == 77 && 5 ≤ j)

/-- `memchr` over a text field finds no NUL (`cache.c:244`). -/
def cleanAt (data : Bytes) (tag : Byte) (j : ℕ) (v : CacheView) : Access Bool :=
  if binaryField tag j then pure true else bytesAt data v.pos v.size >>= fun s => pure (!s.contains 0)

/-- The field loop (`cache.c:239-245`): `k` fields are left, `j` were read into
the array of twelve. -/
def viewFields (data : Bytes) (tag : Byte) : ℕ → ℕ → ℕ → Access (List CacheView × ℕ)
  | 0, _, pos => .value ([], pos)
  | k + 1, j, pos => do
    need (4 ≤ remaining data pos)
    let n ← numberAt data pos
    need (n ≤ remaining data (pos + 4))
    if 12 ≤ j then .outside
    else do
      need (← cleanAt data tag j ⟨pos + 4, n⟩)
      let rest ← viewFields data tag k (j + 1) (pos + 4 + n)
      pure (⟨pos + 4, n⟩ :: rest.1, rest.2)

/-- The locals of `jf_cache_validate`; the previous key as views. -/
structure ViewWalk where
  role : CacheView := {}
  path : CacheView := {}
  walk : Walk

/-- A text, when there is one, has the digest that stands at an offset. -/
def digestAt (data : Bytes) (text : Option Bytes) (pos : ℕ) : Access Bool :=
  match text with
  | none => pure true
  | some t => bytesAt data pos 32 >>= fun d => pure (digest t == d)

/-- An `M` record (`cache.c:247-255`). -/
def validateMetaAt (data : Bytes) (zsh sieve : Option Bytes) (i : ℕ) (w : ViewWalk)
    (f : ℕ → CacheView) : Access ViewWalk := do
  need (i == 0 && w.walk.phase == 0)
  need (← equalAt data (f 0) compilerId)
  need (← either (equalAt data (f 1) ProfileId.coreV1.text)
    (equalAt data (f 1) ProfileId.pigeonhole.text))
  need (← equalAt data (f 2) (cstr "posix-ere-c-icase-v1"))
  need (← equalAt data (f 3) (cstr "ascii-mailbox-casemap-v1"))
  need (← equalAt data (f 4) (cstr "i;ascii-casemap"))
  need ((f 5).size == 32 && (f 6).size == 32)
  need (← digestAt data zsh (f 5).pos)
  need (← digestAt data sieve (f 6).pos)
  let regex ← equalAt data (f 1) ProfileId.pigeonhole.text
  pure { w with walk := { w.walk with phase := 1, regexProfile := regex } }

/-- `!checked || equal(v, value)`. -/
def matchesAt (data : Bytes) (checked : Bool) (v : CacheView) (value : Bytes) : Access Bool :=
  if checked then equalAt data v value else pure true

/-- One required configuration record (`cache.c:267-278`). -/
def validateConfigAt (data : Bytes) (f : ℕ → CacheView) (role : Bytes) (checked : Bool)
    (value : Bytes) (note : Walk → Walk) (w : Walk) : Access Walk := do
  if ← equalAt data (f 0) role then do
    need ((f 1).size == 0)
    need (← equalAt data (f 2) (cstr "1"))
    need (← matchesAt data checked (f 4) value)
    pure (note w)
  else pure w

/-- The three required configuration records, one after the other. -/
def validateConfigsAt (data : Bytes) (f : ℕ → CacheView) (w : Walk) : Access Walk := do
  let w1 ← validateConfigAt data f (cstr "config.address-normalization") true addressNormalization
    (fun w => { w with normalization := true }) w
  let w2 ← validateConfigAt data f (cstr "config.regex-qualification") w.regexProfile
    regexQualification (fun w => { w with qualification := true }) w1
  validateConfigAt data f (cstr "config.regex-catalogue") w.regexProfile regexCatalogue
    (fun w => { w with catalogue := true }) w2

/-- The key does not follow the previous one (`cache.c:258`); `c` compares the
roles. -/
def staleAt (data : Bytes) (w : ViewWalk) (c : Ordering) (path : CacheView) : Access Bool :=
  if w.role.size = 0 then pure false
  else if c = .gt then pure true
  else if c = .eq then compareAt data w.path path >>= fun c => pure c.isGE
  else pure false

/-- Auxiliary bytes with the digest beside them, when that is due
(`cache.c:261-265`). -/
def sealedAt (data : Bytes) (sealed : Bool) (d text : CacheView) : Access Bool :=
  if sealed then bytesAt data text.pos text.size >>= fun t => digestAt data (some t) d.pos
  else pure true

/-- A `D` record (`cache.c:256-279`) between two offsets. -/
def validateDependencyAt (data : Bytes) (start stop : ℕ) (w : ViewWalk) (f : ℕ → CacheView) :
    Access ViewWalk := do
  let c ← compareAt data w.role (f 0)
  need (!(dependencyMax < w.walk.dependencies + 1) && w.walk.phase == 1 && (f 0).size != 0)
  let stale ← staleAt data w c (f 1)
  need (!stale)
  need (← either (both (equalAt data (f 2) (cstr "1")) (pure ((f 3).size == 32)))
    (both (equalAt data (f 2) (cstr "0")) (pure ((f 3).size == 0))))
  let hidden ← both (equalAt data (f 2) (cstr "0")) (pure ((f 4).size != 0))
  need (!hidden)
  let sealed ← both (equalAt data (f 2) (cstr "1"))
    (either (prefixAt data (f 0) (cstr "config.")) (either (prefixAt data (f 0) (cstr "export."))
      (either (prefixAt data (f 0) (cstr "link.")) (prefixAt data (f 0) (cstr "inventory.")))))
  need (← sealedAt data sealed (f 3) (f 4))
  let w3 ← validateConfigsAt data f { w.walk with dependencies := w.walk.dependencies + 1 }
  let raw ← bytesAt data start (stop - start)
  pure ⟨f 0, f 1, { w3 with hash := sha256Update w3.hash raw }⟩

/-- The address check (`cache.c:292-296`), in the array `address`. -/
def validateAddressAt (data : Bytes) (w : Walk) (p : CacheView) : Access Walk := do
  let address ← copyInto (lineMax + 1) data p.pos p.size
  need (normalizeMailbox address == some address)
  need (noUpper address)
  pure w

/-- The `*.` in front of the domain. -/
def markedAt (data : Bytes) (pos skip : ℕ) : Access Bool :=
  if skip = 0 then pure true else bytesAt data pos 2 >>= fun s => pure (s == cstr "*.")

/-- The domain check (`cache.c:298-303`), in the array `domain`. -/
def validateDomainAt (data : Bytes) (w : Walk) (p : CacheView) (skip stage : ℕ) : Access Walk := do
  need (stage == 3 || stage == 4 || stage == 5)
  need (skip < p.size)
  need (← markedAt data p.pos skip)
  let domain ← copyInto (lineMax + 1) data (p.pos + skip) (p.size - skip)
  need (validDomain domain)
  need (noUpper domain)
  pure w

/-- The predicate checks by kind (`cache.c:288-313`). -/
def validatePredicateAt (data : Bytes) (w : Walk) (last : Bool) (f : ℕ → CacheView)
    (stage mask : ℕ) : Access Walk := do
  let address ← equalAt data (f 2) (cstr "address")
  let subdomains ← equalAt data (f 2) (cstr "domain-subdomains")
  if ← either (pure address) (either (equalAt data (f 2) (cstr "domain-apex")) (pure subdomains)) then do
    need ((f 5).size != 0 && (f 5).size ≤ lineMax)
    utf8At data (f 5).pos (f 5).size
    need (addressPlace stage mask)
    if address then validateAddressAt data w (f 5)
    else validateDomainAt data w (f 5) (if subdomains then 2 else 0) stage
  else if ← equalAt data (f 2) (cstr "ere") then do
    need (w.regexProfile && w.qualification && w.catalogue && (f 5).size != 0 && (f 5).size ≤ lineMax)
    need ((stage == 3 && mask == 3) || (stage == 4 && mask == 12))
    let pattern ← copyInto (lineMax + 1) data (f 5).pos (f 5).size
    need (regexSupported pattern)
    pure w
  else if ← equalAt data (f 2) (cstr "sender-contains") then do
    need (stage == 2 && mask == 2 && w.bounce == 0)
    need (← equalAt data (f 4) (cstr "builtin:bounce"))
    need (← equalAt data (f 5) (cstr "mailman-bounce"))
    pure { w with bounce := w.bounce + 1 }
  else if ← equalAt data (f 2) (cstr "spam-is") then do
    need (stage == 6 && mask == 16 && w.spam == 0)
    need (← equalAt data (f 4) (cstr "builtin:spam"))
    need (← equalAt data (f 5) (cstr "YES"))
    pure { w with spam := w.spam + 1 }
  else if ← equalAt data (f 2) (cstr "always") then do
    need (stage == 8 && mask == 0 && w.fallback == 0 && last)
    need (← equalAt data (f 4) (cstr "builtin:unsorted"))
    need ((f 5).size == 0)
    pure { w with fallback := w.fallback + 1 }
  else .refused

/-- An `R` record (`cache.c:280-314`). -/
def validateRuleAt (data : Bytes) (last : Bool) (w : ViewWalk) (f : ℕ → CacheView) :
    Access ViewWalk := do
  need (w.walk.phase != 0)
  let order ← decimalAt data (f 0)
  need (order == w.walk.ordinal + 1 && !(ruleRecordMax < w.walk.ordinal + 1))
  let stage ← decimalAt data (f 1)
  need (!(stage < 1) && !(8 < stage) && !(stage < w.walk.priorStage))
  let mask ← decimalAt data (f 3)
  let _ ← decimalAt data (f 10)
  need (← idAt data (f 4))
  safeTextAt data (f 6) true
  safeTextAt data (f 7) true
  safeTextAt data (f 8) false
  need (← equalAt data (f 11) (cstr "move"))
  let walk ← validatePredicateAt data
    { w.walk with ordinal := w.walk.ordinal + 1, phase := 2, priorStage := stage } last f stage mask
  pure { w with walk := walk }

/-- One record between two offsets, by its tag. -/
def validateRecordAt (data : Bytes) (zsh sieve : Option Bytes) (count i start stop : ℕ) (tag : Byte)
    (w : ViewWalk) (f : ℕ → CacheView) : Access ViewWalk :=
  if tag = 77 then validateMetaAt data zsh sieve i w f
  else if tag = 68 then validateDependencyAt data start stop w f
  else validateRuleAt data (i + 1 == count) w f

/-- The record loop (`cache.c:231-315`). -/
def validateLoopAt (data : Bytes) (zsh sieve : Option Bytes) (count : ℕ) :
    ℕ → ℕ → ViewWalk → ℕ → Access (ViewWalk × ℕ)
  | 0, _, w, pos => .value (w, pos)
  | n + 1, i, w, start => do
    need (5 ≤ remaining data start)
    let tag ← byteAt data start
    let fields ← numberAt data (start + 1)
    need (validArity tag fields)
    let views ← viewFields data tag fields 0 (start + 5)
    let w ← validateRecordAt data zsh sieve count i start views.2 tag w fun j => views.1.getD j {}
    validateLoopAt data zsh sieve count n (i + 1) w views.2

/-- `memcmp(fingerprint, data+24, 32)`, when there is one to compare. -/
def fingerprintAt (data : Bytes) (fingerprint : Option Bytes) : Access Bool :=
  match fingerprint with
  | none => pure true
  | some fp => bytesAt data 24 32 >>= fun d => pure (fp == d)

/-- `jf_cache_validate` (`cache.c:212`); `refused` is `goto bad`. -/
def cacheValidateAt (data : Bytes) (zsh sieve fingerprint : Option Bytes) : Access Unit := do
  need (92 ≤ data.length && cacheFileSize (data.length - cacheHeaderSize))
  let magic ← bytesAt data 0 8
  need (magic == cstr "JFNCACHE")
  need ((← numberAt data 8) == 1)
  need ((← numberAt data 12) == 1)
  let payload ← bytesAt data 16 8
  need (littleValue payload == data.length - 88)
  need (← fingerprintAt data fingerprint)
  let all ← bytesAt data 88 (data.length - 88)
  let sum ← bytesAt data 56 32
  need (digest all == sum)
  let count ← numberAt data 88
  need (!(count < 1 + builtinRules) && !(cacheRecordMax < count))
  let out ← validateLoopAt data zsh sieve count count 0 { walk := startWalk } 92
  let w := out.1.walk
  need (out.2 == data.length && w.bounce == 1 && w.spam == 1 && w.fallback == 1 && w.normalization &&
    (!w.regexProfile || (w.qualification && w.catalogue)))
  let fp ← bytesAt data 24 32
  need (sha256Hex w.hash == digestHex fp)

/-! ### Framing -/

/-- The text fields, counted from `j`, hold no NUL. -/
def nulFree (tag : Byte) : ℕ → List Bytes → Bool
  | _, [] => true
  | j, f :: fs => (binaryField tag j || !f.contains 0) && nulFree tag (j + 1) fs

theorem nulFree_dependency (j : ℕ) (fs : List Bytes) :
    nulFree 68 j fs = !((fs.take (3 - j)).any fun f => f.contains 0) := by
  induction fs generalizing j with
  | nil => simp [nulFree]
  | cons f fs ih =>
    rw [nulFree, ih]
    by_cases hj : 3 ≤ j
    · have h0 : 3 - j = 0 := by omega
      have h1 : 3 - (j + 1) = 0 := by omega
      simp [binaryField, hj, h0, h1]
    · have hk : 3 - j = 3 - (j + 1) + 1 := by omega
      rw [hk, List.take_succ_cons, List.any_cons, Bool.not_or]
      simp [binaryField, hj]

theorem nulFree_meta (j : ℕ) (fs : List Bytes) :
    nulFree 77 j fs = !((fs.take (5 - j)).any fun f => f.contains 0) := by
  induction fs generalizing j with
  | nil => simp [nulFree]
  | cons f fs ih =>
    rw [nulFree, ih]
    by_cases hj : 5 ≤ j
    · have h0 : 5 - j = 0 := by omega
      have h1 : 5 - (j + 1) = 0 := by omega
      simp [binaryField, hj, h0, h1]
    · have hk : 5 - j = 5 - (j + 1) + 1 := by omega
      rw [hk, List.take_succ_cons, List.any_cons, Bool.not_or]
      simp [binaryField, hj]

theorem nulFree_other {tag : Byte} (h68 : tag ≠ 68) (h77 : tag ≠ 77) (j : ℕ) (fs : List Bytes) :
    nulFree tag j fs = !(fs.any fun f => f.contains 0) := by
  induction fs generalizing j with
  | nil => rfl
  | cons f fs ih =>
    rw [nulFree, ih, List.any_cons, Bool.not_or]
    have h : binaryField tag j = false := by simp [binaryField, h68, h77]
    rw [h, Bool.false_or]

theorem nulFree_eq (tag : Byte) (fs : List Bytes) :
    nulFree tag 0 fs = !((textFields ⟨tag, fs⟩).any fun f => f.contains 0) := by
  rw [textFields]
  by_cases h68 : tag = 68
  · rw [if_pos h68, h68, nulFree_dependency]
  · rw [if_neg h68]
    by_cases h77 : tag = 77
    · rw [if_pos h77, h77, nulFree_meta]
    · rw [if_neg h77, nulFree_other h68 h77]

section Framing

variable {data : Bytes}

theorem remaining_eq {pos : ℕ} (h : pos ≤ data.length) : remaining data pos = data.length - pos :=
  if_pos h

/-- Views and the offset behind them, against fields and the rest. -/
def Viewed (data : Bytes) (pos : ℕ) (x : List CacheView × ℕ) (y : List Bytes × Bytes) : Prop :=
  x.1.map (CacheView.text data) = y.1 ∧ (∀ v ∈ x.1, v.Inside data) ∧
    (pos ≤ x.2 ∧ x.2 ≤ data.length) ∧ y.2 = data.drop x.2

theorem viewFields_agrees (tag : Byte) {k j pos : ℕ} (h : pos ≤ data.length) (hj : j + k ≤ 12) :
    Agrees (Viewed data pos) (viewFields data tag k j pos)
      ((readFields k (data.drop pos)).filter fun y => nulFree tag j y.1) := by
  induction k generalizing j pos with
  | zero => exact .value ⟨rfl, by simp, ⟨le_rfl, h⟩, rfl⟩
  | succ k ih =>
    simp only [viewFields, readFields, need_bind, remaining_eq h, decide_eq_true_eq]
    by_cases h4 : 4 ≤ data.length - pos
    · obtain ⟨n, hn, hread⟩ := numberAt_agrees (show pos + 4 ≤ data.length by omega)
      have hlen : (data.drop (pos + 4)).length = data.length - (pos + 4) := List.length_drop
      rw [if_pos h4, hn, hread, value_bind]
      simp only [remaining_eq (show pos + 4 ≤ data.length by omega), hlen]
      by_cases hfit : n ≤ data.length - (pos + 4)
      · have hload := bytesAt_eq (show pos + 4 + n ≤ data.length by omega)
        have hroom : ¬ 12 ≤ j := by omega
        have hlong : ¬ data.length - (pos + 4) < n := by omega
        simp only [hfit, hroom, hlong, if_true, if_false, List.drop_drop]
        have hclean : cleanAt data tag j ⟨pos + 4, n⟩ =
            .value (binaryField tag j || !((data.drop (pos + 4)).take n).contains 0) := by
          rw [cleanAt, hload]
          cases binaryField tag j <;> rfl
        simp only [hclean, value_bind]
        have hrest := ih (show pos + 4 + n ≤ data.length by omega) (show j + 1 + k ≤ 12 by omega)
        obtain ⟨f, hf⟩ : ∃ f, f = (data.drop (pos + 4)).take n := ⟨_, rfl⟩
        rw [← hf]
        obtain ⟨b, hb⟩ : ∃ b, b = (binaryField tag j || !f.contains 0) := ⟨_, rfl⟩
        rw [← hb]
        cases hr : readFields k (data.drop (pos + 4 + n)) with
        | none =>
          rw [hr] at hrest
          obtain ⟨hx, -⟩ | ⟨_, _, -, ho, -⟩ := hrest
          · simp only [hx]
            cases b <;> exact .refused
          · cases ho
        | some y =>
          obtain ⟨fs, rest⟩ := y
          rw [hr] at hrest
          simp only [Option.filter_some, nulFree, ← hb] at hrest ⊢
          cases hn : nulFree tag (j + 1) fs
          · simp only [hn, Bool.false_eq_true, if_false] at hrest
            obtain ⟨hx, -⟩ | ⟨_, _, -, ho, -⟩ := hrest
            · simp only [hx, Bool.and_false]
              cases b <;> exact .refused
            · cases ho
          · simp only [hn, if_true] at hrest
            obtain ⟨-, ho⟩ | ⟨x, y, hx, ho, hmap, hin, hle, hdrop⟩ := hrest
            · cases ho
            · cases ho
              simp only [hx, Bool.and_true]
              cases b
              · exact .refused
              · refine .value ⟨?_, ?_, ⟨by simp only; omega, hle.2⟩, hdrop⟩
                · rw [List.map_cons, hmap, hf]
                  rfl
                · intro v hv
                  rcases List.mem_cons.mp hv with rfl | hv
                  · simp only [CacheView.Inside]
                    omega
                  · exact hin v hv
      · rw [if_neg hfit, if_pos (by omega)]
        exact .refused
    · have hshort : readNumber 4 (data.drop pos) = none := by
        rw [readNumber, if_pos (by simp only [List.length_take, List.length_drop]; omega)]
      rw [if_neg h4, hshort]
      exact .refused

end Framing

/-! ### Records -/

theorem ite_band {α : Type} (a b : Bool) (x y : α) :
    (if (a && b) = true then x else y) = if a = true then if b = true then x else y else y := by
  cases a <;> rfl

/-- The walk with the previous key read out of its views. -/
def ViewWalk.text (data : Bytes) (w : ViewWalk) : Walk :=
  { w.walk with previousRole := w.role.text data, previousPath := w.path.text data }

/-- The two walks belong together. -/
def Follows (data : Bytes) (x : ViewWalk) (y : Walk) : Prop :=
  x.text data = y ∧ x.role.Inside data ∧ x.path.Inside data

section Records

variable {data : Bytes} {f : ℕ → CacheView} {g : List Bytes} (hin : ∀ k, (f k).Inside data)
  (htext : ∀ k, g.getD k [] = (f k).text data)

include hin

theorem text_length (k : ℕ) : ((f k).text data).length = (f k).size := window_length (hin k)

theorem text_eq_nil (k : ℕ) : (f k).text data = [] ↔ (f k).size = 0 := by
  rw [← text_length hin k, List.length_eq_zero_iff]

theorem bytesAt_text (k : ℕ) : bytesAt data (f k).pos (f k).size = .value ((f k).text data) :=
  bytesAt_eq (hin k)

theorem digestAt_eq {text : Option Bytes} {k : ℕ} (h : (f k).size = 32) :
    digestAt data text (f k).pos = .value (text.all fun t => digest t == (f k).text data) := by
  have hload := bytesAt_text hin k
  rw [h] at hload
  cases text with
  | none => rfl
  | some t => simp [digestAt, hload]

theorem staleAt_eq {w : ViewWalk} (hw : w.role.Inside data ∧ w.path.Inside data) :
    staleAt data w (strcmp (w.role.text data) ((f 0).text data)) (f 1) =
      .value (decide (w.role.text data ≠ [] ∧
        (strcmp (w.role.text data) ((f 0).text data) = .gt ∨
          (strcmp (w.role.text data) ((f 0).text data) = .eq ∧
            (strcmp (w.path.text data) ((f 1).text data)).isGE)))) := by
  have hlen : (w.role.text data).length = w.role.size := window_length hw.1
  have hnil : w.role.text data = [] ↔ w.role.size = 0 := by rw [← hlen, List.length_eq_zero_iff]
  rw [staleAt, compareAt_eq hw.2 (hin 1)]
  by_cases h0 : w.role.size = 0
  · simp [h0, hnil.mpr h0]
  · rw [if_neg h0]
    have hne : w.role.text data ≠ [] := fun h => h0 (hnil.mp h)
    cases strcmp (w.role.text data) ((f 0).text data) <;> simp [hne]

include htext

theorem validateMetaAt_agrees (zsh sieve : Option Bytes) (i : ℕ) {w : ViewWalk}
    (hw : w.role.Inside data ∧ w.path.Inside data) :
    Agrees (Follows data) (validateMetaAt data zsh sieve i w f)
      (validateMeta zsh sieve i (w.text data) g) := by
  simp only [validateMetaAt, validateMeta, htext, equalAt_eq (hin _), value_bind, need_bind,
    either_value, text_length hin]
  simp only [ite_band, ite_or]
  iterate 7
    refine Agrees.guard ?_ fun _ => ?_
    · simp [ViewWalk.text, or_iff_not_imp_left]
  refine Agrees.guard (by simp) fun h5 => ?_
  refine Agrees.guard (by simp) fun h6 => ?_
  rw [digestAt_eq hin (by simpa using h5), digestAt_eq hin (by simpa using h6)]
  simp only [value_bind]
  refine Agrees.guard (by cases zsh <;> simp) fun _ => ?_
  refine Agrees.guard (by cases sieve <;> simp) fun _ => ?_
  exact .value ⟨rfl, hw⟩

theorem validateConfigAt_eq (role : Bytes) (checked : Bool) (value : Bytes) (note : Walk → Walk)
    (w : Walk) : validateConfigAt data f role checked value note w =
      if (f 0).text data = role then
        if configOk g checked value then .value (note w) else .refused
      else .value w := by
  have hsize : ((f 1).size == 0) = ((f 1).text data == []) := by
    rw [Bool.eq_iff_iff, beq_iff_eq, beq_iff_eq, text_eq_nil hin]
  have hmatch : matchesAt data checked (f 4) value = .value (!checked || (f 4).text data == value) := by
    rw [matchesAt, equalAt_eq (hin _)]
    cases checked <;> rfl
  simp only [validateConfigAt, equalAt_eq (hin _), value_bind, hmatch, need_bind, configOk, htext,
    hsize, ite_band, beq_iff_eq, pure_eq]

/-- The walk with another previous key. -/
def Walk.keyed (role path : Bytes) (w : Walk) : Walk :=
  { w with previousRole := role, previousPath := path }

theorem validateConfigsAt_agrees (role path : Bytes) (w : Walk) :
    Agrees (fun x y => x.keyed role path = y) (validateConfigsAt data f w)
      (validateConfig (w.keyed role path) g) := by
  have hregex : (w.keyed role path).regexProfile = w.regexProfile := rfl
  simp only [validateConfigsAt, validateConfigAt_eq hin htext, validateConfig, htext, hregex]
  by_cases h1 : (f 0).text data = cstr "config.address-normalization"
  · have h2 : (f 0).text data ≠ cstr "config.regex-qualification" := by
      rw [h1]
      decide
    have h3 : (f 0).text data ≠ cstr "config.regex-catalogue" := by
      rw [h1]
      decide
    rw [if_pos h1, if_pos h1]
    cases configOk g true addressNormalization
    · exact .refused
    · simp only [if_true, value_bind, h2, h3, if_false]
      exact .value rfl
  · rw [if_neg h1, if_neg h1, value_bind]
    by_cases h2 : (f 0).text data = cstr "config.regex-qualification"
    · have h3 : (f 0).text data ≠ cstr "config.regex-catalogue" := by
        rw [h2]
        decide
      rw [if_pos h2, if_pos h2]
      cases configOk g w.regexProfile regexQualification
      · exact .refused
      · simp only [if_true, value_bind, h3, if_false]
        exact .value rfl
    · rw [if_neg h2, if_neg h2, value_bind]
      by_cases h3 : (f 0).text data = cstr "config.regex-catalogue"
      · rw [if_pos h3, if_pos h3]
        cases configOk g w.regexProfile regexCatalogue
        · exact .refused
        · exact .value rfl
      · rw [if_neg h3, if_neg h3]
        exact .value rfl

theorem validateDependencyAt_agrees {start stop : ℕ} (hstart : start ≤ stop)
    (hstop : stop ≤ data.length) {w : ViewWalk} (hw : w.role.Inside data ∧ w.path.Inside data) :
    Agrees (Follows data) (validateDependencyAt data start stop w f)
      (validateDependency ((data.drop start).take (stop - start)) (w.text data) g) := by
  have hload := bytesAt_eq (show start + (stop - start) ≤ data.length by omega)
  simp only [validateDependencyAt, compareAt_eq hw.1 (hin 0), value_bind, staleAt_eq hin hw,
    equalAt_eq (hin _), prefixAt_eq (hin _), both_value, either_value, pure_eq, need_bind, hload,
    validateDependency, htext, ite_band, ite_or]
  iterate 3
    refine Agrees.guard ?_ fun _ => ?_
    · simp [ViewWalk.text, text_eq_nil hin]
  refine Agrees.guard (by simp only [Bool.not_eq_true', decide_eq_false_iff_not]; rfl) fun _ => ?_
  refine Agrees.guard ?_ fun hshape => ?_
  · simp only [Bool.or_eq_true, Bool.and_eq_true, beq_iff_eq, text_length hin, text_eq_nil hin, not_not]
  refine Agrees.guard ?_ fun _ => ?_
  · simp [text_eq_nil hin, or_iff_not_imp_left]
  have hsealed : sealedAt data ((f 2).text data == cstr "1" && selfDigested ((f 0).text data)) (f 3) (f 4) =
      .value (!((f 2).text data == cstr "1" && selfDigested ((f 0).text data)) ||
        digest ((f 4).text data) == (f 3).text data) := by
    rw [sealedAt, bytesAt_text hin, value_bind]
    cases hs : (f 2).text data == cstr "1" && selfDigested ((f 0).text data)
    · rfl
    · rw [Bool.and_eq_true, beq_iff_eq] at hs
      have h32 : (f 3).size = 32 := by
        rw [hs.1] at hshape
        simpa [show ¬ cstr "1" = cstr "0" by decide] using hshape
      rw [if_pos rfl, digestAt_eq hin h32]
      rfl
  have hself : ((cstr "config.").isPrefixOf ((f 0).text data) ||
      ((cstr "export.").isPrefixOf ((f 0).text data) || ((cstr "link.").isPrefixOf ((f 0).text data) ||
        (cstr "inventory.").isPrefixOf ((f 0).text data)))) = selfDigested ((f 0).text data) := by
    simp only [selfDigested, Bool.or_assoc]
  rw [hself, hsealed, value_bind]
  refine Agrees.guard (by simp [imp_iff_not_or, or_assoc]) fun _ => ?_
  have hwalk := validateConfigsAt_agrees hin htext ((f 0).text data) ((f 1).text data)
    { w.walk with dependencies := w.walk.dependencies + 1 }
  exact hwalk.map fun x y hxy => ⟨by rw [← hxy]; rfl, hin 0, hin 1⟩

omit htext in
theorem copyInto_text {cap k : ℕ} (h : (f k).size < cap) :
    copyInto cap data (f k).pos (f k).size = .value ((f k).text data) :=
  copyInto_eq h (hin k)

/-! ### Rules -/

omit htext in
theorem validateAddressAt_eq {w : Walk} {k : ℕ} (h : (f k).size ≤ lineMax) :
    validateAddressAt data w (f k) =
      ofOption (if normalizeMailbox ((f k).text data) = some ((f k).text data) ∧
        noUpper ((f k).text data) then some w else none) := by
  have hcopy := copyInto_text hin (show (f k).size < lineMax + 1 by omega)
  simp only [validateAddressAt, hcopy, value_bind, need_bind, beq_iff_eq]
  by_cases h1 : normalizeMailbox ((f k).text data) = some ((f k).text data) <;>
    cases noUpper ((f k).text data) <;> simp [h1]

omit htext in
theorem validateDomainAt_eq {w : Walk} {k skip stage : ℕ} (hk : (f k).size ≤ lineMax)
    (hskip : skip = 0 ∨ skip = 2) :
    validateDomainAt data w (f k) skip stage =
      ofOption (if ¬ (stage = 3 ∨ stage = 4 ∨ stage = 5) ∨ (f k).size ≤ skip ∨
          (skip ≠ 0 ∧ ((f k).text data).take 2 ≠ cstr "*.") then none
        else if validDomain (((f k).text data).drop skip) ∧ noUpper (((f k).text data).drop skip) then some w
        else none) := by
  have hinside := hin k
  simp only [CacheView.Inside] at hinside
  simp only [validateDomainAt, need_bind]
  by_cases hstage : stage = 3 ∨ stage = 4 ∨ stage = 5
  · have hs : (stage == 3 || stage == 4 || stage == 5) = true := by
      simpa [or_assoc] using hstage
    rw [if_pos hs]
    by_cases hsize : skip < (f k).size
    · have hmark : markedAt data (f k).pos skip =
          .value (skip == 0 || ((f k).text data).take 2 == cstr "*.") := by
        rcases hskip with rfl | rfl
        · rfl
        · have htake : ((f k).text data).take 2 = (data.drop (f k).pos).take 2 := by
            rw [CacheView.text, List.take_take, Nat.min_eq_left (by omega)]
          rw [markedAt, if_neg (by decide), bytesAt_eq (by omega), htake]
          rfl
      have hcopy := copyInto_eq (show (f k).size - skip < lineMax + 1 by omega)
        (show (f k).pos + skip + ((f k).size - skip) ≤ data.length by omega)
      have hdrop : (data.drop ((f k).pos + skip)).take ((f k).size - skip) =
          ((f k).text data).drop skip := by
        rw [CacheView.text, List.drop_take, List.drop_drop]
      simp only [hsize, decide_true, if_true, hmark, value_bind, hcopy, hdrop]
      by_cases hm : skip ≠ 0 ∧ ((f k).text data).take 2 ≠ cstr "*."
      · rw [if_pos (Or.inr (Or.inr hm)), if_neg (by simpa using hm)]
        rfl
      · have hm' : (skip == 0 || ((f k).text data).take 2 == cstr "*.") = true := by
          simpa [or_iff_not_imp_left] using hm
        have hno : ¬ (¬ (stage = 3 ∨ stage = 4 ∨ stage = 5) ∨ (f k).size ≤ skip ∨
            (skip ≠ 0 ∧ ((f k).text data).take 2 ≠ cstr "*.")) := by
          rintro (h | h | h)
          · exact h hstage
          · omega
          · exact hm h
        rw [if_neg hno, if_pos hm']
        cases validDomain (((f k).text data).drop skip) <;>
          cases noUpper (((f k).text data).drop skip) <;> rfl
    · rw [if_neg (by simpa using hsize), if_pos (Or.inr (Or.inl (by omega)))]
      rfl
  · rw [if_pos (Or.inl hstage), if_neg (by simpa [or_assoc] using hstage)]
    rfl

omit htext in
theorem validatePredicateAt_eq (w : Walk) (last : Bool) (stage mask : ℕ) :
    validatePredicateAt data w last f stage mask = ofOption
      (validatePredicate w last ((f 2).text data) ((f 4).text data) ((f 5).text data) stage mask) := by
  have hutf8 : utf8At data (f 5).pos (f 5).size = need (validUtf8 ((f 5).text data)) := utf8At_eq (hin 5)
  simp only [validatePredicateAt, validatePredicate, equalAt_eq (hin _), value_bind, pure_eq,
    either_value, need_bind, hutf8, text_length hin]
  obtain ⟨name, hname⟩ : ∃ name, name = (f 2).text data := ⟨_, rfl⟩
  rw [← hname]
  by_cases hplace : name = cstr "address" ∨ name = cstr "domain-apex" ∨ name = cstr "domain-subdomains"
  · rw [if_pos hplace, if_pos (by simpa using hplace)]
    by_cases hsize : (f 5).size ≠ 0 ∧ (f 5).size ≤ lineMax
    · have hne : (f 5).text data ≠ [] := by
        rw [Ne, text_eq_nil hin]
        exact hsize.1
      have hs : ((f 5).size != 0 && decide ((f 5).size ≤ lineMax)) = true := by simpa using hsize
      rw [if_pos hs]
      cases hu : validUtf8 ((f 5).text data)
      · rw [if_pos (Or.inr (Or.inr (Or.inl rfl)))]
        rfl
      · cases hp : addressPlace stage mask
        · rw [if_pos (Or.inr (Or.inr (Or.inr rfl)))]
          rfl
        · have hok : ¬ ((f 5).text data = [] ∨ lineMax < (f 5).size ∨ true = false ∨ true = false) := by
            simp [hne, hsize.2]
          rw [if_neg hok]
          simp only [if_true, validateAddressAt_eq hin hsize.2]
          by_cases ha : name = cstr "address"
          · simp only [ha, beq_self_eq_true, if_true]
          · have ha' : (name == cstr "address") = false := by simpa using ha
            rw [if_neg ha, ha', if_neg (by simp)]
            by_cases hd : name = cstr "domain-subdomains"
            · simp only [hd, beq_self_eq_true, if_true]
              exact validateDomainAt_eq hin hsize.2 (Or.inr rfl)
            · have hd' : (name == cstr "domain-subdomains") = false := by simpa using hd
              simp only [hd, hd', if_false, Bool.false_eq_true]
              exact validateDomainAt_eq hin hsize.2 (Or.inl rfl)
    · have hs : ((f 5).size != 0 && decide ((f 5).size ≤ lineMax)) = false := by
        rw [Bool.eq_false_iff]
        simpa using hsize
      have hbad : (f 5).text data = [] ∨ lineMax < (f 5).size ∨ validUtf8 ((f 5).text data) = false ∨
          addressPlace stage mask = false := by
        rw [text_eq_nil hin]
        omega
      rw [if_pos hbad, hs]
      rfl
  · rw [if_neg hplace, if_neg (by simpa using hplace)]
    simp only [beq_iff_eq]
    apply Agrees.eq
    by_cases hname : name = cstr "ere"
    · rw [if_pos hname, if_pos hname]
      simp only [ite_band, ite_or]
      iterate 4
        refine Agrees.guard ?_ fun _ => ?_
        · simp [text_eq_nil hin]
      refine Agrees.guard (by simp) fun hsize => ?_
      refine Agrees.guard (by simp [or_iff_not_imp_left]) fun _ => ?_
      rw [copyInto_text hin (by simpa [Nat.lt_succ_iff] using hsize), value_bind]
      refine Agrees.guard (by simp) fun _ => ?_
      exact .value rfl
    · rw [if_neg hname, if_neg hname]
      by_cases hname : name = cstr "sender-contains"
      · rw [if_pos hname, if_pos hname]
        simp only [ite_band, ite_or]
        iterate 5
          refine Agrees.guard ?_ fun _ => ?_
          · simp
        exact .value rfl
      · rw [if_neg hname, if_neg hname]
        by_cases hname : name = cstr "spam-is"
        · rw [if_pos hname, if_pos hname]
          simp only [ite_band, ite_or]
          iterate 5
            refine Agrees.guard ?_ fun _ => ?_
            · simp
          exact .value rfl
        · rw [if_neg hname, if_neg hname]
          by_cases hname : name = cstr "always"
          · rw [if_pos hname, if_pos hname]
            simp only [ite_band, ite_or]
            iterate 6
              refine Agrees.guard ?_ fun _ => ?_
              · simp [text_eq_nil hin]
            exact .value rfl
          · rw [if_neg hname, if_neg hname]
            exact .refused

omit hin htext in
theorem validatePredicate_keyed (role path : Bytes) (w : Walk) (last : Bool) (kind id p : Bytes)
    (stage mask : ℕ) : validatePredicate (w.keyed role path) last kind id p stage mask =
      (validatePredicate w last kind id p stage mask).map (Walk.keyed role path) := by
  have hregex : (w.keyed role path).regexProfile = w.regexProfile := rfl
  have hqualification : (w.keyed role path).qualification = w.qualification := rfl
  have hcatalogue : (w.keyed role path).catalogue = w.catalogue := rfl
  have hbounce : (w.keyed role path).bounce = w.bounce := rfl
  have hspam : (w.keyed role path).spam = w.spam := rfl
  have hfallback : (w.keyed role path).fallback = w.fallback := rfl
  simp only [validatePredicate, hregex, hqualification, hcatalogue, hbounce, hspam, hfallback]
  split_ifs <;> rfl

theorem validateRuleAt_agrees (last : Bool) {w : ViewWalk}
    (hw : w.role.Inside data ∧ w.path.Inside data) :
    Agrees (Follows data) (validateRuleAt data last w f) (validateRule last (w.text data) g) := by
  simp only [validateRuleAt, validateRule, htext, decimalAt_eq (hin _), idAt_eq (hin _),
    safeTextAt_eq (hin _), equalAt_eq (hin _), value_bind, need_bind]
  have hrefused : ∀ b : Bool, Agrees (Follows data) (if b then .refused else .refused) none := by
    intro b
    cases b <;> exact .refused
  cases decimal ((f 0).text data) with
  | none => exact hrefused _
  | some order =>
  cases decimal ((f 1).text data) with
  | none =>
    simp only [ofOption_some, ofOption_none, value_bind, refused_bind, ite_self]
    exact .refused
  | some stage =>
  cases decimal ((f 3).text data) with
  | none =>
    simp only [ofOption_some, ofOption_none, value_bind, refused_bind, ite_self]
    exact .refused
  | some mask =>
  cases decimal ((f 10).text data) with
  | none =>
    simp only [ofOption_some, ofOption_none, value_bind, refused_bind, ite_self]
    exact .refused
  | some line =>
  simp only [ofOption_some, value_bind, ite_band, ite_or]
  iterate 11
    refine Agrees.guard ?_ fun _ => ?_
    · simp [ViewWalk.text]
  rw [validatePredicateAt_eq hin]
  obtain ⟨walk, hwalk⟩ : ∃ v, v = { w.walk with ordinal := w.walk.ordinal + 1, phase := 2, priorStage := stage } :=
    ⟨_, rfl⟩
  rw [← hwalk, show { w.text data with ordinal := (w.text data).ordinal + 1, phase := 2, priorStage := stage } =
    walk.keyed (w.role.text data) (w.path.text data) by rw [hwalk]; rfl, validatePredicate_keyed]
  cases validatePredicate walk last ((f 2).text data) ((f 4).text data) ((f 5).text data) stage mask with
  | none => exact .refused
  | some v => exact .value ⟨rfl, hw⟩

/-- One record: the framing has shown that its text fields hold no NUL. -/
theorem validateRecordAt_agrees (zsh sieve : Option Bytes) (count i : ℕ) {start stop : ℕ}
    (hstart : start ≤ stop) (hstop : stop ≤ data.length) {tag : Byte} (hnul : nulFree tag 0 g = true)
    {w : ViewWalk} (hw : w.role.Inside data ∧ w.path.Inside data) :
    Agrees (Follows data) (validateRecordAt data zsh sieve count i start stop tag w f)
      (validateRecord zsh sieve count i ((data.drop start).take (stop - start)) (w.text data) ⟨tag, g⟩) := by
  have hno : (textFields ⟨tag, g⟩).any (fun f => f.contains 0) = false := by
    rw [nulFree_eq] at hnul
    simpa using hnul
  simp only [validateRecordAt, validateRecord, hno, Bool.false_eq_true, if_false]
  split
  · exact validateMetaAt_agrees hin htext zsh sieve i hw
  · split
    · exact validateDependencyAt_agrees hin htext hstart hstop hw
    · exact validateRuleAt_agrees hin htext _ hw

end Records

/-! ### The whole walk -/

theorem validArity_le {tag : Byte} {n : ℕ} (h : validArity tag n = true) : n ≤ 12 := by
  simp only [validArity, Bool.and_eq_true, beq_iff_eq] at h
  rw [h.1]
  split_ifs <;> decide

theorem validateLoopAt_agrees {data : Bytes} (zsh sieve : Option Bytes) (count : ℕ) {n i : ℕ}
    {w : ViewWalk} (hw : w.role.Inside data ∧ w.path.Inside data) {start : ℕ}
    (hstart : start ≤ data.length) :
    Agrees (fun x y => Follows data x.1 y.1 ∧ x.2 ≤ data.length ∧ y.2 = data.drop x.2)
      (validateLoopAt data zsh sieve count n i w start)
      (validateLoop zsh sieve count n i (w.text data) (data.drop start)) := by
  induction n generalizing i w start with
  | zero => exact .value ⟨⟨rfl, hw⟩, hstart, rfl⟩
  | succ n ih =>
    simp only [validateLoopAt, validateLoop, need_bind, remaining_eq hstart, decide_eq_true_eq]
    by_cases h5 : 5 ≤ data.length - start
    · have hlt : start < data.length := by omega
      obtain ⟨tag, htag⟩ : ∃ tag, tag = data[start] := ⟨_, rfl⟩
      have hbyte : byteAt data start = .value tag := by
        rw [byteAt, List.getElem?_eq_getElem hlt, htag]
      have hdrop : data.drop start = tag :: data.drop (start + 1) := by
        rw [htag, List.drop_eq_getElem_cons hlt]
      obtain ⟨fields, hnum, hread⟩ := numberAt_agrees (show start + 1 + 4 ≤ data.length by omega)
      rw [if_pos h5, hbyte, value_bind, hnum, value_bind]
      cases harity : validArity tag fields
      · have hnone : readRecord validArity (data.drop start) = none := by
          rw [hdrop, readRecord, hread]
          simp [harity]
        rw [hnone]
        exact .refused
      · have hviews := viewFields_agrees tag (show start + 5 ≤ data.length by omega)
          (show 0 + fields ≤ 12 by simpa using validArity_le harity)
        cases hr : readFields fields (data.drop (start + 5)) with
        | none =>
          have hnone : readRecord validArity (data.drop start) = none := by
            rw [hdrop, readRecord, hread]
            simp [harity, hr]
          rw [hr] at hviews
          obtain ⟨hx, -⟩ | ⟨_, _, -, ho, -⟩ := hviews
          · simp only [if_true, hx, refused_bind, hnone]
            exact .refused
          · cases ho
        | some y =>
          obtain ⟨g, rest⟩ := y
          have hsome : readRecord validArity (data.drop start) = some (⟨tag, g⟩, rest) := by
            rw [hdrop, readRecord, hread]
            simp [harity, hr]
          rw [hr, Option.filter_some] at hviews
          simp only [if_true, hsome]
          cases hnul : nulFree tag 0 g
          · have hno : validateRecord zsh sieve count i
                ((data.drop start).take ((data.drop start).length - rest.length)) (w.text data)
                ⟨tag, g⟩ = none := by
              rw [nulFree_eq] at hnul
              rw [validateRecord, if_pos (by simpa using hnul)]
            simp only [hnul, Bool.false_eq_true, if_false] at hviews
            obtain ⟨hx, -⟩ | ⟨_, _, -, ho, -⟩ := hviews
            · simp only [hx, refused_bind, hno]
              exact .refused
            · cases ho
          · simp only [hnul, if_true] at hviews
            obtain ⟨-, ho⟩ | ⟨x, y, hx, ho, hmap, hin, ⟨hle, hend⟩, hrest⟩ := hviews
            · cases ho
            · cases ho
              simp only at hmap hrest
              have hraw : (data.drop start).length - rest.length = x.2 - start := by
                rw [hrest, List.length_drop, List.length_drop]
                omega
              have hins : ∀ k, (x.1.getD k {}).Inside data := getD_of_forall hin (Nat.zero_le _)
              have htexts : ∀ k, g.getD k [] = (x.1.getD k {}).text data := by
                intro k
                rw [← hmap, List.getD_eq_getElem?_getD, List.getD_eq_getElem?_getD, List.getElem?_map]
                cases x.1[k]? <;> rfl
              have hrec := validateRecordAt_agrees hins htexts zsh sieve count i
                (show start ≤ x.2 by omega) hend hnul hw
              simp only [hx, value_bind, hraw]
              obtain ⟨hv, ho⟩ | ⟨v, w1, hv, ho, hvw, hv1, hv2⟩ := hrec
              · simp only [hv, ho, refused_bind]
                exact .refused
              · simp only [hv, ho, value_bind, ← hvw, hrest]
                exact ih ⟨hv1, hv2⟩ hend
    · have hshort : readRecord validArity (data.drop start) = none := by
        cases hs : data.drop start with
        | nil => rfl
        | cons tag s =>
          have hlen := congrArg List.length hs
          rw [List.length_drop, List.length_cons] at hlen
          have hnum : readNumber 4 s = none := by
            rw [readNumber, if_pos (by simp only [List.length_take]; omega)]
          rw [readRecord, hnum]
      rw [if_neg h5, hshort]
      exact .refused

/-- The walk behind the header. -/
theorem validateRecordsAt_eq {data : Bytes} (zsh sieve : Option Bytes) (count : ℕ) (fp : Bytes)
    (h92 : 92 ≤ data.length) :
    (validateLoopAt data zsh sieve count count 0 { walk := startWalk } 92 >>= fun out =>
      if (out.2 == data.length && out.1.walk.bounce == 1 && out.1.walk.spam == 1 &&
          out.1.walk.fallback == 1 && out.1.walk.normalization &&
          (!out.1.walk.regexProfile || (out.1.walk.qualification && out.1.walk.catalogue))) = true then
        need (sha256Hex out.1.walk.hash == digestHex fp)
      else .refused) =
    need (match validateLoop zsh sieve count count 0 startWalk (data.drop 92) with
      | none => Except.error badCache
      | some (w, rest) => if walkComplete w rest fp then .ok () else .error badCache).isOk := by
  have hstart : ({ walk := startWalk } : ViewWalk).role.Inside data ∧
      ({ walk := startWalk } : ViewWalk).path.Inside data := ⟨Nat.zero_le _, Nat.zero_le _⟩
  have hloop := validateLoopAt_agrees zsh sieve count (n := count) (i := 0) hstart h92
  have htext : ({ walk := startWalk } : ViewWalk).text data = startWalk := rfl
  rw [htext] at hloop
  obtain ⟨hx, ho⟩ | ⟨⟨v, stop⟩, ⟨w, rest⟩, hx, ho, ⟨hvw, -⟩, hle, hrest⟩ := hloop
  · rw [hx, ho]
    rfl
  · simp only at hvw hle hrest
    have hend : (stop == data.length) = (rest == []) := by
      rw [Bool.eq_iff_iff, beq_iff_eq, beq_iff_eq, hrest, List.drop_eq_nil_iff]
      omega
    obtain ⟨sum, hsum⟩ : ∃ b, b = (sha256Hex v.walk.hash == digestHex fp) := ⟨_, rfl⟩
    obtain ⟨done, hdone⟩ : ∃ b, b = (rest == [] && v.walk.bounce == 1 && v.walk.spam == 1 &&
        v.walk.fallback == 1 && v.walk.normalization &&
        (!v.walk.regexProfile || (v.walk.qualification && v.walk.catalogue))) := ⟨_, rfl⟩
    have hcomplete : walkComplete w rest fp = (done && sum) := by
      rw [hdone, hsum, ← hvw]
      rfl
    rw [hx, ho, value_bind, hend]
    simp only [hcomplete, ← hdone, ← hsum]
    cases done <;> cases sum <;> rfl

/-- The validator never leaves the bytes and decides as the one over lists. -/
theorem cacheValidateAt_eq (data : Bytes) (zsh sieve fingerprint : Option Bytes) :
    cacheValidateAt data zsh sieve fingerprint =
      need (cacheValidate data zsh sieve fingerprint).isOk := by
  have hbad : ∀ e : Failure, need (Except.error e : Except Failure Unit).isOk = .refused := fun _ => rfl
  simp only [cacheValidateAt, cacheValidate, need_bind]
  by_cases h92 : 92 ≤ data.length
  · have hload : ∀ pos n, pos + n ≤ 92 → bytesAt data pos n = .value ((data.drop pos).take n) :=
      fun pos n h => bytesAt_eq (by omega)
    have hnum : ∀ pos, pos + 4 ≤ 92 → numberAt data pos = .value (littleValue ((data.drop pos).take 4)) := by
      intro pos h
      rw [numberAt, hload pos 4 h]
      rfl
    have hfp : fingerprintAt data fingerprint =
        .value (fingerprint.all fun fp => fp == (data.drop 24).take 32) := by
      cases fingerprint with
      | none => rfl
      | some fp =>
        rw [fingerprintAt, hload 24 32 (by omega)]
        rfl
    have hall : bytesAt data 88 (data.length - 88) = .value (data.drop 88) := by
      rw [bytesAt_eq (by omega), List.take_of_length_le (by rw [List.length_drop])]
    simp only [hload 0 8 (by omega), hload 16 8 (by omega), hload 56 32 (by omega), hload 24 32 (by omega),
      hnum 8 (by omega), hnum 12 (by omega), hnum 88 (by omega), hfp, hall, value_bind, List.drop_zero,
      validateRecordsAt_eq zsh sieve _ _ h92]
    have hheader : ∀ y : Except Failure Unit,
        need (if cacheHeader data fingerprint = false then .error badCache else y).isOk =
          if cacheHeader data fingerprint = true then need y.isOk else .refused := by
      intro y
      cases cacheHeader data fingerprint <;> rfl
    have hcount : ∀ y : Except Failure Unit,
        need (if recordCount data < 1 + builtinRules ∨ cacheRecordMax < recordCount data then
          .error badCache else y).isOk =
          if (!decide (recordCount data < 1 + builtinRules) &&
            !decide (cacheRecordMax < recordCount data)) = true then need y.isOk else .refused := by
      intro y
      by_cases h1 : recordCount data < 1 + builtinRules <;>
        by_cases h2 : cacheRecordMax < recordCount data <;> simp [h1, h2, hbad]
    rw [hheader, hcount]
    simp only [cacheHeader, ite_band]
    rfl
  · have hheader : cacheHeader data fingerprint = false := by simp [cacheHeader, h92]
    rw [if_pos hheader, hbad]
    simp [h92]

end JaroFilter
