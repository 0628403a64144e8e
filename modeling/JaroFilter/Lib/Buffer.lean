import JaroFilter.Lib.Bytes

/-!
# Buffers rewritten in place

A buffer of fixed size that a program reads and overwrites by index. Each
write names the bytes still to be read; one that leaves the buffer or hits
such a byte gives `none`, and so does a read outside. A program that always
returns a value therefore never destroys what it has yet to look at.
-/

namespace JaroFilter.Lib

/-- The bytes from `lo` up to `hi`. -/
structure Span where
  lo : ℕ
  hi : ℕ

def peek (mem : Bytes) (i : ℕ) : Option Byte := mem[i]?

def poke (keep : Span) (mem : Bytes) (i : ℕ) (c : Byte) : Option Bytes :=
  if i < mem.length ∧ ¬ (keep.lo ≤ i ∧ i < keep.hi) then some (mem.set i c) else none

/-- `memmove`: the bytes to be written are all read first. -/
def move (keep : Span) (mem : Bytes) (dst src n : ℕ) : Option Bytes :=
  if dst + n ≤ mem.length ∧ src + n ≤ mem.length ∧ (dst + n ≤ keep.lo ∨ keep.hi ≤ dst) then
    some (mem.take dst ++ (mem.drop src).take n ++ mem.drop (dst + n))
  else none

theorem peek_of_drop {mem : Bytes} {i : ℕ} {c : Byte} {s : Bytes} (h : mem.drop i = c :: s) :
    peek mem i = some c ∧ mem.drop (i + 1) = s ∧ i < mem.length := by
  have hlt : i < mem.length := by
    by_contra hge
    rw [List.drop_eq_nil_of_le (by omega)] at h
    cases h
  rw [List.drop_eq_getElem_cons hlt] at h
  obtain ⟨h1, h2⟩ := List.cons.inj h
  exact ⟨by rw [peek, List.getElem?_eq_getElem hlt, h1], h2, hlt⟩

theorem peek_of_take {mem : Bytes} {i : ℕ} {p : Bytes} {c : Byte} (h : mem.take (i + 1) = p ++ [c])
    (hp : p.length = i) : peek mem i = some c ∧ mem.take i = p := by
  have hi : (mem.take (i + 1))[i]? = some c := by
    rw [h, List.getElem?_append_right (by omega), hp, Nat.sub_self]
    rfl
  rw [List.getElem?_take_of_lt (by omega)] at hi
  refine ⟨hi, ?_⟩
  have htake : (mem.take (i + 1)).take i = (p ++ [c]).take i := congrArg (List.take i) h
  rwa [List.take_take, Nat.min_eq_left (by omega), List.take_left' hp] at htake

theorem poke_eq {keep : Span} {mem : Bytes} {i : ℕ} (c : Byte) (hi : i < mem.length)
    (hk : i < keep.lo ∨ keep.hi ≤ i) : poke keep mem i c = some (mem.set i c) := by
  rw [poke, if_pos ⟨hi, by omega⟩]

theorem move_eq {keep : Span} {mem : Bytes} {dst src n : ℕ} (hd : dst + n ≤ mem.length)
    (hs : src + n ≤ mem.length) (hk : dst + n ≤ keep.lo ∨ keep.hi ≤ dst) :
    move keep mem dst src n =
      some (mem.take dst ++ (mem.drop src).take n ++ mem.drop (dst + n)) := by
  rw [move, if_pos ⟨hd, hs, hk⟩]

/-- A write behind a prefix leaves it alone and extends it when it is next. -/
theorem take_set_succ {mem : Bytes} {i : ℕ} (c : Byte) (hi : i < mem.length) :
    (mem.set i c).take (i + 1) = mem.take i ++ [c] := by
  rw [List.take_add_one, List.getElem?_set_self hi, List.take_set_of_le (le_refl i)]
  rfl

theorem drop_set_cons {mem : Bytes} {i : ℕ} (c : Byte) (hi : i < mem.length) :
    (mem.set i c).drop i = c :: mem.drop (i + 1) := by
  rw [List.drop_eq_getElem_cons (by simpa using hi), List.getElem_set_self,
    List.drop_set_of_lt (by omega)]

/-- The bytes up to the first NUL. -/
def cstringAt (b : Bytes) (i : ℕ) : Bytes := (b.drop i).takeWhile (· ≠ 0)

theorem takeWhile_append_zero {t : Bytes} (h : 0 ∉ t) (s : Bytes) :
    (t ++ 0 :: s).takeWhile (· ≠ 0) = t := by
  rw [List.takeWhile_append_of_pos fun c hc => by simpa using fun he : c = 0 => h (he ▸ hc)]
  simp

/-- A NUL ends its field: what stands before and after it is determined. -/
theorem append_zero_inj {a b s t : Bytes} (ha : 0 ∉ a) (hb : 0 ∉ b)
    (h : a ++ 0 :: s = b ++ 0 :: t) : a = b ∧ s = t := by
  have hab : a = b := by
    have htake := congrArg (List.takeWhile (· ≠ 0)) h
    rwa [takeWhile_append_zero ha, takeWhile_append_zero hb] at htake
  subst hab
  exact ⟨rfl, by simpa using h⟩

/-! ### Terminated items -/

/-- Every item with its terminator. -/
def framed (items : List Bytes) : Bytes := items.flatMap (· ++ [0])

@[simp] theorem framed_nil : framed [] = [] := rfl

@[simp] theorem framed_cons (x : Bytes) (xs : List Bytes) : framed (x :: xs) = x ++ 0 :: framed xs := by
  simp [framed]

@[simp] theorem framed_append (xs ys : List Bytes) : framed (xs ++ ys) = framed xs ++ framed ys :=
  List.flatMap_append

/-- The first terminator behind a framed prefix ends the next item. -/
theorem framed_split {done items : List Bytes} {item rest : Bytes} (hd : ∀ x ∈ done, 0 ∉ x)
    (hi : ∀ x ∈ items, 0 ∉ x) (hitem : 0 ∉ item)
    (h : framed done ++ (item ++ 0 :: rest) = framed items) :
    ∃ more, items = done ++ item :: more ∧ framed more = rest := by
  induction done generalizing items with
  | nil =>
    cases items with
    | nil => simp at h
    | cons x xs =>
      rw [framed_nil, List.nil_append, framed_cons] at h
      obtain ⟨rfl, rfl⟩ := append_zero_inj hitem (hi x (by simp)) h
      exact ⟨xs, rfl, rfl⟩
  | cons d done ih =>
    cases items with
    | nil => simp at h
    | cons x xs =>
      rw [framed_cons, framed_cons, List.append_assoc, List.cons_append] at h
      obtain ⟨rfl, hrest⟩ := append_zero_inj (hd d (by simp)) (hi x (by simp)) h
      obtain ⟨more, rfl, hmore⟩ := ih (fun y hy => hd y (by simp [hy]))
        (fun y hy => hi y (by simp [hy])) hrest
      exact ⟨more, rfl, hmore⟩

/-- Framed bytes end with a terminator. -/
theorem framed_tail {done items : List Bytes} {item : Bytes} (hd : ∀ x ∈ done, 0 ∉ x)
    (hi : ∀ x ∈ items, 0 ∉ x) (hitem : 0 ∉ item) (h : framed done ++ item = framed items) : item = [] := by
  induction done generalizing items with
  | nil =>
    cases items with
    | nil => simpa using h
    | cons x xs =>
      rw [framed_nil, List.nil_append, framed_cons] at h
      exact absurd (h ▸ by simp) hitem
  | cons d done ih =>
    cases items with
    | nil => simp at h
    | cons x xs =>
      rw [framed_cons, framed_cons, List.append_assoc, List.cons_append] at h
      obtain ⟨rfl, hrest⟩ := append_zero_inj (hd d (by simp)) (hi x (by simp)) h
      exact ih (fun y hy => hd y (by simp [hy])) (fun y hy => hi y (by simp [hy])) hrest

theorem framed_injective {xs ys : List Bytes} (hx : ∀ x ∈ xs, 0 ∉ x) (hy : ∀ y ∈ ys, 0 ∉ y)
    (h : framed xs = framed ys) : xs = ys := by
  induction xs generalizing ys with
  | nil =>
    cases ys with
    | nil => rfl
    | cons y ys => simp at h
  | cons x xs ih =>
    cases ys with
    | nil => simp at h
    | cons y ys =>
      rw [framed_cons, framed_cons] at h
      obtain ⟨rfl, hrest⟩ := append_zero_inj (hx x (by simp)) (hy y (by simp)) h
      rw [ih (fun z hz => hx z (by simp [hz])) (fun z hz => hy z (by simp [hz])) hrest]

end JaroFilter.Lib
