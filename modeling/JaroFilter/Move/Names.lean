import JaroFilter.Sha256
import JaroFilter.Batch.Pool

/-!
# The names of a move (`storage.c`, `pool.c`)

A move makes private directories for the staged copy and for the claimed
source, and publishes the copy under the name of its source or under an
alternative. Both kinds of names carry the nonce of the worker and its sequence.
-/

namespace JaroFilter

open Lib

/-! ### Formatted text -/

/-- The `%zx` text of a number. -/
def lowerHexText (n : ℕ) : Bytes := if n = 0 then [48] else (Nat.digits 16 n).reverse.map hexChar

/-- `snprintf` into a buffer of `size` bytes. -/
def snprintf (size : ℕ) (text : Bytes) : Bytes := text.take (size - 1)

/-- `strstr`. -/
def strstr (s needle : Bytes) : Option Bytes := s.tails.find? fun t => needle.isPrefixOf t

/-- What follows the last slash (`strrchr`). -/
def baseName (path : Bytes) : Bytes := path.rtakeWhile (· != 47)

/-! ### Views of the storage -/

abbrev Nonce := Fin 16 → Byte

/-- The nonce of worker `i` (`pool.c:148`). -/
def workerNonce (nonce : Nonce) (i : Worker) : Nonce := fun k =>
  if k.val = 0 ∨ k.val = 15 then nonce k ^^^ UInt8.ofNat i.val else nonce k

def hexNonce (nonce : Nonce) : Bytes := (List.ofFn nonce).flatMap byteHex

/-- `SIZE_MAX`, where the sequence of a view stops. -/
def sequenceMax : ℕ := 2 ^ 64 - 1

def moveRetries : ℕ := 64

/-- The name of a private directory (`storage.c:190`). -/
def ownedName (nonce : Nonce) (sequence : ℕ) : Bytes :=
  snprintf 80 (cstr ".jaro-filter." ++ hexNonce nonce ++ cstr "." ++ lowerHexText sequence)

/-- `fpathconf` with `_PC_NAME_MAX`. -/
inductive NameMax where
  | most (n : ℕ)
  | unlimited
  | failed
  deriving DecidableEq, Repr

def NameMax.value : NameMax → Option ℕ
  | .most n => some n
  | .unlimited => some 255
  | .failed => none

/-- The Maildir flags of a name, with their mark. -/
def flagsOf (source : Bytes) : Bytes := (strstr source (cstr ":2,")).getD []

/-- The prefix of an alternative name. -/
def fullPrefix (nonce : Nonce) (sequence attempt : ℕ) : Bytes :=
  snprintf 80 (cstr "jaro." ++ ((List.ofFn nonce).take 4).flatMap byteHex ++ cstr "." ++ lowerHexText sequence ++
    cstr "." ++ decimalText attempt)

def nameAlphabet : Bytes := cstr "0123456789ABCDEFGHIJKLMNOPQRSTUVWXYZabcdefghijklmnopqrstuvwxyz"

/-- The prefix where there is no room for the full one. -/
def shortPrefix (nonce : Nonce) (sequence attempt used : ℕ) : Bytes :=
  (List.range used).map fun i => nameAlphabet.getD
    (((nonce (Fin.ofNat 16 i)).toNat + sequence + attempt + i) % 2 ^ 64 % 62) 0

/-- There is room for the full prefix. -/
def prefixFits (nonce : Nonce) (sequence attempt maximum : ℕ) (source : Bytes) : Bool :=
  (fullPrefix nonce sequence attempt).length ≤ maximum - (flagsOf source).length

/-- `published_name`. -/
def publishedName (nonce : Nonce) (sequence : ℕ) (source : Bytes) (attempt : ℕ) (limit : NameMax) :
    Option Bytes :=
  if attempt = 0 then some source
  else match limit.value with
    | none => none
    | some maximum =>
      let flags := flagsOf source
      if maximum ≤ flags.length then none
      else
        let available := maximum - flags.length
        if prefixFits nonce sequence attempt maximum source then
          some (fullPrefix nonce sequence attempt ++ flags)
        else some (shortPrefix nonce sequence attempt (min available 79) ++ flags)

/-! ### The moves of the workers -/

/-- Where a worker stands among the names of its move. Any call between two
names may fail, which ends the move. -/
inductive NamingAt where
  | idle
  /-- `create_owned`, for the stage or for the claim. -/
  | creating (claim : Bool) (source : Bytes) (attempt : ℕ)
  /-- The loop that publishes the copy. -/
  | linking (source : Bytes) (attempt : ℕ)
  | published (source : Bytes)
  deriving DecidableEq, Repr

/-- What a worker's view keeps between its moves. -/
structure StorageView where
  sequence : ℕ := 0
  move : ℕ := 0
  stands : NamingAt := .idle
  deriving DecidableEq, Repr

inductive Answer where
  | done
  | exists
  | failed
  deriving DecidableEq, Repr

inductive NameEvent where
  /-- `create_owned` passed this name to `mkdirat`. -/
  | directory (w : Worker) (name : Bytes)
  /-- `published_name` built this name, with or without room for the prefix. -/
  | alternative (w : Worker) (move : ℕ) (source : Bytes) (attempt maximum : ℕ) (room : Bool) (name : Bytes)
  /-- The name of the source itself was tried. -/
  | original (w : Worker) (source : Bytes)
  deriving DecidableEq, Repr

inductive NamingAct where
  /-- A move of the entry at this path. -/
  | move (path : Bytes)
  | mkdir (answer : Answer)
  | link (limit : NameMax) (answer : Answer)
  | claim
  | leave
  deriving DecidableEq, Repr

namespace StorageView

/-- One iteration of `create_owned`. -/
def mkdir (nonce : Nonce) (w : Worker) (v : StorageView) (claim : Bool) (source : Bytes) (attempt : ℕ)
    (answer : Answer) : StorageView × List NameEvent :=
  if attempt = moveRetries ∨ v.sequence = sequenceMax then ({ v with stands := .idle }, [])
  else
    let sequence := v.sequence + 1
    let stands := match answer with
      | .done => if claim then .idle else .linking source 0
      | .exists => .creating claim source (attempt + 1)
      | .failed => .idle
    ({ v with sequence, stands }, [.directory w (ownedName nonce sequence)])

/-- One iteration of the loop that publishes (`storage.c:404-418`). -/
def link (nonce : Nonce) (w : Worker) (v : StorageView) (source : Bytes) (attempt : ℕ) (limit : NameMax)
    (answer : Answer) : StorageView × List NameEvent :=
  if attempt = moveRetries then ({ v with stands := .idle }, [])
  else match publishedName nonce v.sequence source attempt limit with
    | none => ({ v with stands := .idle }, [])
    | some name =>
      let maximum := limit.value.getD 0
      let stands := match answer with
        | .done => .published source
        | .exists => .linking source (attempt + 1)
        | .failed => .idle
      ({ v with stands }, [if attempt = 0 then .original w name else
        .alternative w v.move source attempt maximum
          (prefixFits nonce v.sequence attempt maximum source) name])

/-- One step of a worker among the names. -/
def act (nonce : Nonce) (w : Worker) (v : StorageView) : NamingAct → Option (StorageView × List NameEvent)
  | .move path =>
    match v.stands with
    | .idle => some ({ v with move := v.move + 1, stands := .creating false (baseName path) 0 }, [])
    | _ => none
  | .mkdir answer =>
    match v.stands with
    | .creating claim source attempt => some (v.mkdir nonce w claim source attempt answer)
    | _ => none
  | .link limit answer =>
    match v.stands with
    | .linking source attempt => some (v.link nonce w source attempt limit answer)
    | _ => none
  | .claim =>
    match v.stands with
    | .published source => some ({ v with stands := .creating true source 0 }, [])
    | _ => none
  | .leave => some ({ v with stands := .idle }, [])

end StorageView

/-- The workers of one batch, in any order of their steps. A batch without a pool
is a run in which only the first takes steps: its nonce is the batch's own. -/
def naming (nonce : Nonce) : Labelled (Worker → StorageView) (Worker × NamingAct) NameEvent where
  start := fun _ => {}
  act := fun s a => ((s a.1).act (workerNonce nonce a.1) a.1 a.2).map fun x => (Function.update s a.1 x.1, x.2)

/-! ### Names the batch admits -/

/-- The conditions of `independent` on the names (`jaro-filter.c:444-456`): each
path with whether its first occurrence is another. -/
def independentNames (items : List (Bytes × Bool)) : Bool :=
  items.all (fun item => item.1.length ≤ 32768 && !(cstr "jaro.").isPrefixOf (baseName item.1) &&
    (flagsOf (baseName item.1)).length ≤ 175 && !item.2) &&
  (items.map fun item => baseName item.1).Nodup

/-! ### The text of a number -/

theorem lowerHexText_value (n : ℕ) : Nat.ofDigits 16 ((lowerHexText n).map unhexChar).reverse = n := by
  by_cases h : n = 0
  · subst h
    rfl
  · have hback : ∀ d ∈ (Nat.digits 16 n).reverse, unhexChar (hexChar d) = d := fun d hd =>
      unhexChar_hexChar (Nat.digits_lt_base (by omega) (List.mem_reverse.mp hd))
    have hid : (Nat.digits 16 n).reverse.map (unhexChar ∘ hexChar) = (Nat.digits 16 n).reverse :=
      (List.map_congr_left hback).trans (List.map_id _)
    rw [lowerHexText, if_neg h, List.map_map, hid, List.reverse_reverse, Nat.ofDigits_digits]

theorem lowerHexText_injective : Function.Injective lowerHexText := fun n m h => by
  rw [← lowerHexText_value n, h, lowerHexText_value]

theorem lowerHexText_lowerHex (n : ℕ) : ∀ c ∈ lowerHexText n, isLowerHex c = true := by
  intro c hc
  by_cases h : n = 0
  · subst h
    rw [List.mem_singleton.mp hc]
    rfl
  · rw [lowerHexText, if_neg h] at hc
    obtain ⟨d, hd, rfl⟩ := List.mem_map.mp hc
    exact isLowerHex_hexChar (Nat.digits_lt_base (by omega) (List.mem_reverse.mp hd))

theorem lowerHexText_length {n : ℕ} (h : n ≤ sequenceMax) : (lowerHexText n).length ≤ 16 := by
  by_cases h0 : n = 0
  · subst h0
    decide
  · rw [lowerHexText, if_neg h0, List.length_map, List.length_reverse, Nat.digits_length_le_iff (by omega)]
    exact Nat.lt_of_le_of_lt h (by decide)

/-- The attempts print in two digits at most. -/
theorem attempt_length {attempt : ℕ} (h : attempt ≤ moveRetries) : (decimalText attempt).length ≤ 2 := by
  have hall : ∀ a : Fin 65, (decimalText a.val).length ≤ 2 := by decide
  exact hall ⟨attempt, Nat.lt_succ_of_le h⟩

/-- Bytes of a name that is neither a separator nor a mark. -/
theorem lowerHex_ne {c : Byte} (h : isLowerHex c = true) : c ≠ 46 ∧ c ≠ 47 ∧ c ≠ 58 := by
  refine ⟨?_, ?_, ?_⟩ <;> rintro rfl <;> exact absurd h (by decide)

theorem byteHex_flatMap_lowerHex (l : Bytes) : ∀ c ∈ l.flatMap byteHex, isLowerHex c = true := by
  intro c hc
  obtain ⟨b, -, hb⟩ := List.mem_flatMap.mp hc
  simp only [byteHex, List.mem_cons, List.not_mem_nil, or_false] at hb
  have hlt := b.toNat_lt
  obtain rfl | rfl := hb
  · exact isLowerHex_hexChar (by omega)
  · exact isLowerHex_hexChar (by omega)

theorem byteHex_flatMap_length (l : Bytes) : (l.flatMap byteHex).length = 2 * l.length := by
  rw [List.length_flatMap]
  simp [byteHex, Nat.mul_comm]

theorem byteHex_flatMap_injective : Function.Injective fun l : Bytes => l.flatMap byteHex := by
  intro l m h
  have hback := congrArg unhex h
  rwa [show unhex (l.flatMap byteHex) = l from unhex_digestHex l,
    show unhex (m.flatMap byteHex) = m from unhex_digestHex m] at hback

/-! ### No name is cut -/

theorem snprintf_eq {size : ℕ} {text : Bytes} (h : text.length < size) : snprintf size text = text :=
  List.take_of_length_le (by omega)

theorem hexNonce_length (nonce : Nonce) : (hexNonce nonce).length = 32 := by
  rw [hexNonce, byteHex_flatMap_length, List.length_ofFn]

theorem fourHex_length (nonce : Nonce) : (((List.ofFn nonce).take 4).flatMap byteHex).length = 8 := by
  rw [byteHex_flatMap_length, List.length_take, List.length_ofFn]
  rfl

theorem ownedName_eq (nonce : Nonce) {sequence : ℕ} (h : sequence ≤ sequenceMax) : ownedName nonce sequence =
    cstr ".jaro-filter." ++ hexNonce nonce ++ cstr "." ++ lowerHexText sequence := by
  have hsequence := lowerHexText_length h
  have hmark : (cstr ".jaro-filter.").length = 13 ∧ (cstr ".").length = 1 := by decide
  have hnonce := hexNonce_length nonce
  refine snprintf_eq ?_
  simp only [List.length_append]
  omega

theorem fullPrefix_eq (nonce : Nonce) {sequence attempt : ℕ} (h : sequence ≤ sequenceMax)
    (ha : attempt ≤ moveRetries) : fullPrefix nonce sequence attempt =
      cstr "jaro." ++ ((List.ofFn nonce).take 4).flatMap byteHex ++ cstr "." ++ lowerHexText sequence ++
        cstr "." ++ decimalText attempt := by
  have hsequence := lowerHexText_length h
  have hattempt := attempt_length ha
  have hmark : (cstr "jaro.").length = 5 ∧ (cstr ".").length = 1 := by decide
  have hnonce := fourHex_length nonce
  refine snprintf_eq ?_
  simp only [List.length_append]
  omega

/-! ### The names tell the worker, the sequence and the attempt -/

theorem append_dot_inj {a b c d : Bytes} (ha : 46 ∉ a) (hb : 46 ∉ b) (h : a ++ 46 :: c = b ++ 46 :: d) :
    a = b ∧ c = d := by
  have hne : ∀ {l : Bytes}, 46 ∉ l → ∀ x ∈ l, (x != 46) = true := fun hl x hx => by
    rw [bne_iff_ne]
    rintro rfl
    exact hl hx
  have hstop : ∀ (l r : Bytes), 46 ∉ l → (l ++ 46 :: r).takeWhile (· != 46) = l := fun l r hl => by
    rw [List.takeWhile_append_of_pos (hne hl), List.takeWhile_cons_of_neg (by decide), List.append_nil]
  have hab := congrArg (List.takeWhile (· != 46)) h
  rw [hstop a c ha, hstop b d hb] at hab
  subst hab
  exact ⟨rfl, (List.cons.inj (List.append_cancel_left h)).2⟩

theorem ownedName_inj {nonce nonce' : Nonce} {n m : ℕ} (hn : n ≤ sequenceMax) (hm : m ≤ sequenceMax)
    (h : ownedName nonce n = ownedName nonce' m) : nonce = nonce' ∧ n = m := by
  rw [ownedName_eq nonce hn, ownedName_eq nonce' hm] at h
  simp only [List.append_assoc, List.append_cancel_left_eq] at h
  obtain ⟨hnonce, htext⟩ := List.append_inj h (by rw [hexNonce_length, hexNonce_length])
  exact ⟨List.ofFn_injective (byteHex_flatMap_injective hnonce),
    lowerHexText_injective (List.append_cancel_left htext)⟩

theorem fullPrefix_inj {nonce nonce' : Nonce} {n m a b : ℕ} (hn : n ≤ sequenceMax) (hm : m ≤ sequenceMax)
    (ha : a ≤ moveRetries) (hb : b ≤ moveRetries) (h : fullPrefix nonce n a = fullPrefix nonce' m b) :
    nonce 0 = nonce' 0 ∧ n = m ∧ a = b := by
  rw [fullPrefix_eq nonce hn ha, fullPrefix_eq nonce' hm hb] at h
  have hdot : cstr "." = [46] := by decide
  have hplain : ∀ k, (46 : Byte) ∉ lowerHexText k := fun k hk => (lowerHex_ne (lowerHexText_lowerHex k 46 hk)).1 rfl
  simp only [List.append_assoc, List.append_cancel_left_eq] at h
  obtain ⟨hnonce, htext⟩ := List.append_inj h (by rw [fourHex_length, fourHex_length])
  have htext := List.append_cancel_left htext
  rw [hdot, List.singleton_append] at htext
  obtain ⟨hseq, hatt⟩ := append_dot_inj (hplain n) (hplain m) htext
  have hfour := byteHex_flatMap_injective hnonce
  refine ⟨?_, lowerHexText_injective hseq, decimalText_injective hatt⟩
  have hhead := congrArg List.head? hfour
  rw [List.head?_take, List.head?_take] at hhead
  simpa [List.ofFn_succ] using hhead

/-- The first byte of the nonce tells the worker. -/
theorem workerNonce_inj {nonce : Nonce} {i j : Worker} (h : workerNonce nonce i 0 = workerNonce nonce j 0) :
    i = j := by
  have hzero : ∀ w, workerNonce nonce w 0 = nonce 0 ^^^ UInt8.ofNat w.val := fun w => if_pos (.inl rfl)
  rw [hzero, hzero, UInt8.xor_right_inj] at h
  have hall : ∀ i j : Worker, UInt8.ofNat i.val = UInt8.ofNat j.val → i = j := by decide
  exact hall i j h

/-! ### An alternative name -/

theorem strstr_suffix {s needle t : Bytes} (h : strstr s needle = some t) : t <:+ s ∧ needle <+: t :=
  ⟨(List.mem_tails _ _).mp (List.mem_of_find?_eq_some h), List.isPrefixOf_iff_prefix.mp (List.find?_some h)⟩

theorem flagsOf_suffix (source : Bytes) : flagsOf source <:+ source := by
  rw [flagsOf]
  cases h : strstr source (cstr ":2,") with
  | none => exact List.nil_suffix
  | some t => exact (strstr_suffix h).1

theorem flagsOf_head (source : Bytes) : flagsOf source = [] ∨ ∃ t, flagsOf source = 58 :: t := by
  rw [flagsOf]
  cases h : strstr source (cstr ":2,") with
  | none => exact .inl rfl
  | some t =>
    obtain ⟨r, hr⟩ := (strstr_suffix h).2
    exact .inr ⟨50 :: 44 :: r, hr.symm⟩

theorem mem_fullPrefix {nonce : Nonce} {sequence attempt : ℕ} {c : Byte}
    (h : c ∈ fullPrefix nonce sequence attempt) : c ≠ 47 ∧ c ≠ 58 := by
  have hmarks : ∀ c ∈ cstr "jaro." ++ cstr ".", c ≠ 47 ∧ c ≠ 58 := by decide +kernel
  have hhex : ∀ {c}, isLowerHex c = true → c ≠ 47 ∧ c ≠ 58 := fun hc =>
    ⟨(lowerHex_ne hc).2.1, (lowerHex_ne hc).2.2⟩
  have hc := List.mem_of_mem_take h
  simp only [List.mem_append] at hc
  obtain ((((hc | hc) | hc) | hc) | hc) | hc := hc
  · exact hmarks c (List.mem_append_left _ hc)
  · exact hhex (byteHex_flatMap_lowerHex _ c hc)
  · exact hmarks c (List.mem_append_right _ hc)
  · exact hhex (lowerHexText_lowerHex _ c hc)
  · exact hmarks c (List.mem_append_right _ hc)
  · have hdigit := decimalText_digits attempt c hc
    constructor <;> rintro rfl <;> exact absurd hdigit (by decide)

theorem mem_shortPrefix {nonce : Nonce} {sequence attempt used : ℕ} {c : Byte}
    (h : c ∈ shortPrefix nonce sequence attempt used) : c ≠ 47 := by
  have hall : ∀ k : Fin 62, nameAlphabet.getD k.val 0 ≠ 47 := by decide
  obtain ⟨i, -, rfl⟩ := List.mem_map.mp h
  exact hall ⟨_, Nat.mod_lt _ (by decide)⟩

/-- The full prefix is what stands before the flags. -/
theorem takeWhile_nonce (nonce : Nonce) (sequence attempt : ℕ) (source : Bytes) :
    (fullPrefix nonce sequence attempt ++ flagsOf source).takeWhile (· != 58) =
      fullPrefix nonce sequence attempt := by
  have hplain : ∀ c ∈ fullPrefix nonce sequence attempt, (c != 58) = true := fun c hc =>
    bne_iff_ne.mpr (mem_fullPrefix hc).2
  rw [List.takeWhile_append_of_pos hplain]
  obtain hnil | ⟨t, ht⟩ := flagsOf_head source
  · rw [hnil]
    simp
  · rw [ht, List.takeWhile_cons_of_neg (by decide), List.append_nil]

theorem not_mem_baseName (path : Bytes) : 47 ∉ baseName path := fun h => by
  have hne := List.mem_rtakeWhile_imp h
  exact absurd hne (by decide)

/-- What `published_name` gives for an attempt after the first. -/
structure Alternative (nonce : Nonce) (sequence : ℕ) (source : Bytes) (attempt maximum : ℕ) (room : Bool)
    (name : Bytes) : Prop where
  fits : name.length ≤ maximum
  flags : flagsOf source <:+ name
  slash : 47 ∉ name
  full : room = true → name = fullPrefix nonce sequence attempt ++ flagsOf source

theorem publishedName_alternative {nonce : Nonce} {sequence : ℕ} {source name : Bytes} {attempt : ℕ}
    {limit : NameMax} (ha : attempt ≠ 0) (hs : 47 ∉ source)
    (h : publishedName nonce sequence source attempt limit = some name) :
    ∃ maximum, limit.value = some maximum ∧ Alternative nonce sequence source attempt maximum
      (prefixFits nonce sequence attempt maximum source) name := by
  have hflags : 47 ∉ flagsOf source := fun hc => hs ((flagsOf_suffix source).subset hc)
  rw [publishedName, if_neg ha] at h
  cases hv : limit.value with
  | none =>
    rw [hv] at h
    cases h
  | some maximum =>
    rw [hv] at h
    refine ⟨maximum, rfl, ?_⟩
    by_cases hroom : maximum ≤ (flagsOf source).length
    · simp only [hroom, if_true] at h
      cases h
    · simp only [hroom, if_false] at h
      cases hfit : prefixFits nonce sequence attempt maximum source with
      | true =>
        rw [hfit, if_pos rfl] at h
        cases h
        have hle := of_decide_eq_true hfit
        refine ⟨?_, List.suffix_append _ _, ?_, fun _ => rfl⟩
        · rw [List.length_append]
          omega
        · rw [List.mem_append, not_or]
          exact ⟨fun hc => (mem_fullPrefix hc).1 rfl, hflags⟩
      | false =>
        rw [hfit, if_neg (by decide)] at h
        cases h
        refine ⟨?_, List.suffix_append _ _, ?_, fun hc => absurd hc (by decide)⟩
        · rw [List.length_append, shortPrefix, List.length_map, List.length_range]
          omega
        · rw [List.mem_append, not_or]
          exact ⟨fun hc => mem_shortPrefix hc rfl, hflags⟩

/-! ### Names of a run -/

/-- Two names that may not be equal. -/
def NameEvent.Apart : NameEvent → NameEvent → Prop
  | .directory _ name, .directory _ name' => name ≠ name'
  | .alternative _ _ _ _ _ room name, .alternative _ _ _ _ _ room' name' =>
    room = true → room' = true → name ≠ name'
  | _, _ => True

/-- What the workers know of a name that was made. -/
def Stamped (nonce : Nonce) (s : Worker → StorageView) : NameEvent → Prop
  | .directory w name => ∃ n ≤ (s w).sequence, name = ownedName (workerNonce nonce w) n
  | .alternative w _ source attempt maximum room name => attempt ≠ 0 ∧ attempt ≤ moveRetries ∧
    ∃ n ≤ (s w).sequence, Alternative (workerNonce nonce w) n source attempt maximum room name ∧
      ∀ source' a, (s w).stands = .linking source' a → n = (s w).sequence → attempt < a
  | .original _ _ => True

/-- What a worker keeps between two names. -/
structure StorageView.Ok (v : StorageView) : Prop where
  bound : v.sequence ≤ sequenceMax
  creating : ∀ claim source a, v.stands = .creating claim source a → 47 ∉ source
  linking : ∀ source a, v.stands = .linking source a → 47 ∉ source ∧ a ≤ moveRetries
  published : ∀ source, v.stands = .published source → 47 ∉ source

/-- The sequence never goes back, and the loop that publishes only goes on. -/
structure StorageView.Advances (v v' : StorageView) : Prop where
  sequence : v.sequence ≤ v'.sequence
  linking : ∀ source a, v'.stands = .linking source a → v'.sequence = v.sequence →
    ∃ source' a', v.stands = .linking source' a' ∧ a' ≤ a

/-- The names one step makes. -/
inductive StorageView.Makes (nonce : Nonce) (w : Worker) (v v' : StorageView) : List NameEvent → Prop where
  | nothing : Makes nonce w v v' []
  | original (source : Bytes) : Makes nonce w v v' [.original w source]
  | directory (hs : v'.sequence = v.sequence + 1) :
    Makes nonce w v v' [.directory w (ownedName nonce v'.sequence)]
  | alternative (move : ℕ) {source name : Bytes} {attempt maximum : ℕ} {room : Bool}
    (hs : v'.sequence = v.sequence) (hv : v.stands = .linking source attempt) (h0 : attempt ≠ 0)
    (ha : Alternative nonce v.sequence source attempt maximum room name)
    (hnext : ∀ source' a, v'.stands = .linking source' a → attempt < a) :
    Makes nonce w v v' [.alternative w move source attempt maximum room name]

theorem StorageView.Ok.idle {v : StorageView} (h : v.Ok) : { v with stands := .idle }.Ok :=
  ⟨h.bound, fun _ _ _ hc => (by cases hc), fun _ _ hc => (by cases hc), fun _ hc => (by cases hc)⟩

theorem StorageView.Advances.of_stands {v : StorageView} {stands : NamingAt}
    (h : ∀ source a, stands ≠ .linking source a) : v.Advances { v with stands } :=
  ⟨Nat.le_refl _, fun source a hc => absurd hc (h source a)⟩

theorem StorageView.mkdir_makes {nonce : Nonce} {w : Worker} {v v' : StorageView} {claim : Bool} {source : Bytes}
    {attempt : ℕ} {answer : Answer} {es : List NameEvent} (h : v.Ok) (hs : 47 ∉ source)
    (hm : v.mkdir nonce w claim source attempt answer = (v', es)) :
    v'.Ok ∧ v.Advances v' ∧ v.Makes nonce w v' es := by
  unfold StorageView.mkdir at hm
  by_cases hend : attempt = moveRetries ∨ v.sequence = sequenceMax
  · rw [if_pos hend] at hm
    cases hm
    exact ⟨h.idle, .of_stands fun _ _ hc => (by cases hc), .nothing⟩
  · rw [if_neg hend] at hm
    cases hm
    have hle : v.sequence + 1 ≤ sequenceMax := by
      have hbound := h.bound
      omega
    refine ⟨⟨hle, ?_, ?_, ?_⟩, ⟨Nat.le_succ _, fun _ _ _ hc => absurd hc (Nat.succ_ne_self _)⟩, .directory rfl⟩
    · intro c source' a hc
      cases answer <;> cases claim <;> cases hc <;> exact hs
    · intro source' a hc
      cases answer <;> cases claim <;> cases hc
      exact ⟨hs, Nat.zero_le _⟩
    · intro source' hc
      cases answer <;> cases claim <;> cases hc

theorem StorageView.link_makes {nonce : Nonce} {w : Worker} {v v' : StorageView} {source : Bytes} {attempt : ℕ}
    {limit : NameMax} {answer : Answer} {es : List NameEvent} (h : v.Ok)
    (hv : v.stands = .linking source attempt) (hm : v.link nonce w source attempt limit answer = (v', es)) :
    v'.Ok ∧ v.Advances v' ∧ v.Makes nonce w v' es := by
  obtain ⟨hs, hle⟩ := h.linking source attempt hv
  unfold StorageView.link at hm
  by_cases hend : attempt = moveRetries
  · rw [if_pos hend] at hm
    cases hm
    exact ⟨h.idle, .of_stands fun _ _ hc => (by cases hc), .nothing⟩
  · rw [if_neg hend] at hm
    cases hname : publishedName nonce v.sequence source attempt limit with
    | none =>
      rw [hname] at hm
      cases hm
      exact ⟨h.idle, .of_stands fun _ _ hc => (by cases hc), .nothing⟩
    | some name =>
      rw [hname] at hm
      cases hm
      refine ⟨⟨h.bound, ?_, ?_, ?_⟩, ⟨Nat.le_refl _, ?_⟩, ?_⟩
      · intro c source' a hc
        cases answer <;> cases hc
      · intro source' a hc
        cases answer <;> cases hc
        exact ⟨hs, by omega⟩
      · intro source' hc
        cases answer <;> cases hc
        exact hs
      · intro source' a hc _
        cases answer <;> cases hc
        exact ⟨source, attempt, hv, Nat.le_succ _⟩
      · by_cases h0 : attempt = 0
        · rw [if_pos h0]
          exact .original name
        · rw [if_neg h0]
          obtain ⟨maximum, hmax, halt⟩ := publishedName_alternative h0 hs hname
          rw [hmax]
          refine .alternative v.move rfl hv h0 halt fun source' a hc => ?_
          cases answer <;> cases hc
          exact Nat.lt_succ_self _

theorem StorageView.act_makes {nonce : Nonce} {w : Worker} {v v' : StorageView} {a : NamingAct} {es : List NameEvent}
    (h : v.Ok) (ha : v.act nonce w a = some (v', es)) : v'.Ok ∧ v.Advances v' ∧ v.Makes nonce w v' es := by
  cases a with
  | move path =>
    simp only [StorageView.act] at ha
    split at ha
    · cases ha
      refine ⟨⟨h.bound, ?_, fun _ _ hc => (by cases hc), fun _ hc => (by cases hc)⟩,
        ⟨Nat.le_refl _, fun _ _ hc => (by cases hc)⟩, .nothing⟩
      intro c source a hc
      cases hc
      exact not_mem_baseName path
    · cases ha
  | mkdir answer =>
    simp only [StorageView.act] at ha
    split at ha
    · rename_i claim source attempt hv
      exact StorageView.mkdir_makes h (h.creating _ _ _ hv) (Option.some.inj ha)
    · cases ha
  | link limit answer =>
    simp only [StorageView.act] at ha
    split at ha
    · rename_i source attempt hv
      exact StorageView.link_makes h hv (Option.some.inj ha)
    · cases ha
  | claim =>
    simp only [StorageView.act] at ha
    split at ha
    · rename_i source hv
      cases ha
      refine ⟨⟨h.bound, ?_, fun _ _ hc => (by cases hc), fun _ hc => (by cases hc)⟩,
        .of_stands fun _ _ hc => (by cases hc), .nothing⟩
      intro c source' a hc
      cases hc
      exact h.published source hv
    · cases ha
  | leave =>
    cases ha
    exact ⟨h.idle, .of_stands fun _ _ hc => (by cases hc), .nothing⟩

/-! ### The names of a run are apart -/

structure NamingInv (nonce : Nonce) (tr : List NameEvent) (s : Worker → StorageView) : Prop where
  ok : ∀ w, (s w).Ok
  stamped : ∀ e ∈ tr, Stamped nonce s e

theorem stamped_advances {nonce : Nonce} {s : Worker → StorageView} {w : Worker} {v : StorageView}
    (h : (s w).Advances v) {e : NameEvent} (he : Stamped nonce s e) :
    Stamped nonce (Function.update s w v) e := by
  have hle : ∀ w', (s w').sequence ≤ (Function.update s w v w').sequence := fun w' => by
    by_cases hw : w' = w
    · subst hw
      rw [Function.update_self]
      exact h.sequence
    · rw [Function.update_of_ne hw]
  cases e with
  | original _ _ => trivial
  | directory w' name =>
    obtain ⟨n, hn, hname⟩ := he
    exact ⟨n, Nat.le_trans hn (hle w'), hname⟩
  | alternative w' move source attempt maximum room name =>
    obtain ⟨h0, hmost, n, hn, halt, hlater⟩ := he
    refine ⟨h0, hmost, n, Nat.le_trans hn (hle w'), halt, fun source' a hs hnow => ?_⟩
    by_cases hw : w' = w
    · subst hw
      rw [Function.update_self] at hs hnow
      have hsame : v.sequence = (s w').sequence := Nat.le_antisymm (hnow ▸ hn) h.sequence
      obtain ⟨source'', a', hs', hle'⟩ := h.linking source' a hs hsame
      exact Nat.lt_of_lt_of_le (hlater source'' a' hs' (hnow.trans hsame)) hle'
    · rw [Function.update_of_ne hw] at hs hnow
      exact hlater source' a hs hnow

theorem makes_stamped {nonce : Nonce} {s : Worker → StorageView} {w : Worker} {v : StorageView} {es : List NameEvent}
    (hok : (s w).Ok) (hm : (s w).Makes (workerNonce nonce w) w v es) :
    ∀ e ∈ es, Stamped nonce (Function.update s w v) e := by
  intro e he
  cases hm with
  | nothing => cases he
  | original source =>
    obtain rfl := List.mem_singleton.mp he
    trivial
  | directory hs =>
    obtain rfl := List.mem_singleton.mp he
    refine ⟨v.sequence, ?_, rfl⟩
    rw [Function.update_self]
  | alternative move hs hv h0 halt hnext =>
    obtain rfl := List.mem_singleton.mp he
    refine ⟨h0, (hok.linking _ _ hv).2, (s w).sequence, ?_, halt, ?_⟩
    · rw [Function.update_self, hs]
    · intro source' a hc _
      rw [Function.update_self] at hc
      exact hnext source' a hc

theorem makes_apart {nonce : Nonce} {s : Worker → StorageView} {w : Worker} {v : StorageView} {es : List NameEvent}
    (hok : ∀ w, (s w).Ok) (hv' : v.Ok) (hm : (s w).Makes (workerNonce nonce w) w v es) {e : NameEvent}
    (he : Stamped nonce s e) : ∀ e' ∈ es, NameEvent.Apart e e' := by
  intro e' he'
  cases hm with
  | nothing => cases he'
  | original source =>
    obtain rfl := List.mem_singleton.mp he'
    cases e <;> trivial
  | directory hs =>
    obtain rfl := List.mem_singleton.mp he'
    cases e with
    | directory w' name =>
      obtain ⟨n, hn, rfl⟩ := he
      intro heq
      obtain ⟨hnonce, hseq⟩ := ownedName_inj (Nat.le_trans hn (hok w').bound) hv'.bound heq
      obtain rfl := workerNonce_inj (congrFun hnonce 0)
      omega
    | _ => trivial
  | @alternative move source name attempt maximum room hs hv h0 halt hnext =>
    obtain rfl := List.mem_singleton.mp he'
    cases e with
    | alternative w' move' source' attempt' maximum' room' name' =>
      obtain ⟨h0', hmost, n, hn, halt', hlater⟩ := he
      intro hroom' hroom heq
      rw [halt.full hroom, halt'.full hroom'] at heq
      have hprefix := congrArg (List.takeWhile (· != 58)) heq
      rw [takeWhile_nonce, takeWhile_nonce] at hprefix
      obtain ⟨hnonce, hseq, hatt⟩ := fullPrefix_inj (Nat.le_trans hn (hok w').bound) (hok w).bound hmost
        ((hok w).linking _ _ hv).2 hprefix
      obtain rfl := workerNonce_inj hnonce
      have hlt := hlater source attempt hv hseq
      omega
    | _ => trivial

theorem naming_inv {nonce : Nonce} {tr : List NameEvent} {s : Worker → StorageView}
    (h : (naming nonce).Runs tr s) : NamingInv nonce tr s ∧ tr.Pairwise NameEvent.Apart := by
  have hstep : ∀ {s a s' es}, (naming nonce).act s a = some (s', es) → ∃ v,
      (s a.1).act (workerNonce nonce a.1) a.1 a.2 = some (v, es) ∧ s' = Function.update s a.1 v := by
    intro s a s' es ha
    obtain ⟨x, hx, heq⟩ := Option.map_eq_some_iff.mp ha
    cases heq
    exact ⟨x.1, hx, rfl⟩
  have hinv : ∀ {tr s}, (naming nonce).Runs tr s → NamingInv nonce tr s := by
    intro tr s hrun
    refine hrun.invariant (P := NamingInv nonce) ⟨fun _ => ?_, fun _ he => (by cases he)⟩ ?_
    · exact ⟨Nat.zero_le _, fun _ _ _ hc => (by cases hc), fun _ _ hc => (by cases hc),
        fun _ hc => (by cases hc)⟩
    · intro tr s a s' es _ ih ha
      obtain ⟨v, hv, rfl⟩ := hstep ha
      obtain ⟨hok, hadv, hmakes⟩ := StorageView.act_makes (ih.ok a.1) hv
      refine ⟨fun w => ?_, fun e he => ?_⟩
      · by_cases hw : w = a.1
        · subst hw
          rwa [Function.update_self]
        · rw [Function.update_of_ne hw]
          exact ih.ok w
      · obtain he | he := List.mem_append.mp he
        · exact stamped_advances hadv (ih.stamped e he)
        · exact makes_stamped (ih.ok a.1) hmakes e he
  refine ⟨hinv h, h.pairwise fun {tr s a s' es} hrun ha => ?_⟩
  obtain ⟨v, hv, rfl⟩ := hstep ha
  obtain ⟨hok, -, hmakes⟩ := StorageView.act_makes ((hinv hrun).ok a.1) hv
  refine ⟨fun e he => makes_apart (hinv hrun).ok hok hmakes ((hinv hrun).stamped e he), ?_⟩
  cases hmakes with
  | nothing => exact List.Pairwise.nil
  | _ => exact List.pairwise_singleton _ _

/-- A name the batch admits does not begin like an alternative. -/
theorem admitted_ne {items : List (Bytes × Bool)} (h : independentNames items = true)
    {item : Bytes × Bool} (hi : item ∈ items) (rest : Bytes) : cstr "jaro." ++ rest ≠ baseName item.1 := by
  rw [independentNames, Bool.and_eq_true, List.all_eq_true] at h
  have hitem := h.1 item hi
  simp only [Bool.and_eq_true, Bool.not_eq_true'] at hitem
  intro heq
  rw [← heq, List.isPrefixOf_iff_prefix.mpr (List.prefix_append _ _)] at hitem
  exact absurd hitem.1.1.2 (by decide)

/-- In every run of the workers the private directories have different names,
and so have the alternatives with room for their prefix, which differ from every
name the batch admits; and every alternative fits its limit, is one name and
keeps the flags of its source. -/
theorem names_stay_apart {nonce : Nonce} {tr : List NameEvent} {s : Worker → StorageView}
    (h : (naming nonce).Runs tr s) :
    tr.Pairwise NameEvent.Apart ∧
    ∀ w move source attempt maximum room name,
      .alternative w move source attempt maximum room name ∈ tr →
      attempt ≠ 0 ∧ name.length ≤ maximum ∧ 47 ∉ name ∧ flagsOf source <:+ name ∧
      (room = true → ∀ items, independentNames items = true → ∀ item ∈ items, name ≠ baseName item.1) := by
  obtain ⟨hinv, hapart⟩ := naming_inv h
  refine ⟨hapart, fun w move source attempt maximum room name he => ?_⟩
  obtain ⟨h0, hmost, n, hn, halt, -⟩ := hinv.stamped _ he
  refine ⟨h0, halt.fits, halt.slash, halt.flags, fun hroom items hitems item hi => ?_⟩
  rw [halt.full hroom, fullPrefix_eq _ (Nat.le_trans hn (hinv.ok w).bound) hmost]
  simp only [List.append_assoc]
  exact admitted_ne hitems hi _

/-- Two workers that both find the name of their source taken. -/
def sampleMoveNames : List NameEvent :=
  [.directory 3 (cstr ".jaro-filter.04070707070707070707070707070704.1"),
    .directory 5 (cstr ".jaro-filter.02070707070707070707070707070702.1"),
    .directory 5 (cstr ".jaro-filter.02070707070707070707070707070702.2"),
    .original 3 (cstr "x:2,S"), .original 5 (cstr "x:2,S"),
    .alternative 3 1 (cstr "x:2,S") 1 255 true (cstr "jaro.04070707.1.1:2,S"),
    .alternative 5 1 (cstr "x:2,S") 1 24 true (cstr "jaro.02070707.2.1:2,S"),
    .alternative 5 1 (cstr "x:2,S") 2 9 false (cstr "6CDEF:2,S"),
    .directory 3 (cstr ".jaro-filter.04070707070707070707070707070704.2")]

theorem names_stay_apart_sample : ∃ s, (naming fun _ => 7).Runs sampleMoveNames s ∧
    sampleMoveNames.Pairwise NameEvent.Apart := by
  obtain ⟨acts, hacts⟩ : ∃ acts : List (Worker × NamingAct), acts =
      [(3, .move (cstr "a/x:2,S")), (5, .move (cstr "/b/x:2,S")), (3, .mkdir .done), (5, .mkdir .exists),
        (5, .mkdir .done), (3, .link (.most 255) .exists), (5, .link .unlimited .exists),
        (3, .link .unlimited .done), (5, .link (.most 24) .exists), (5, .link (.most 9) .failed),
        (3, .claim), (3, .mkdir .done)] := ⟨_, rfl⟩
  have hnames : ((naming fun _ => 7).exec acts [] fun _ => {}).map Prod.fst = some sampleMoveNames := by
    rw [hacts]
    decide
  obtain ⟨⟨tr, s⟩, hexec, rfl⟩ := Option.map_eq_some_iff.mp hnames
  have hrun := Labelled.exec_runs Labelled.Runs.start hexec
  exact ⟨s, hrun, (names_stay_apart hrun).1⟩

end JaroFilter
