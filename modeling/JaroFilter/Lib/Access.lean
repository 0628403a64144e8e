import JaroFilter.Lib.Framing

/-!
# Bounds-checked access

A program that reads a buffer by offset, with every access checked: `outside`
is an access beyond a bound, `refused` the program's own way out. A program
that agrees with a reader of lists is never `outside`.
-/

namespace JaroFilter.Lib

inductive Access (α : Type) where
  | outside
  | refused
  | value (a : α)
  deriving DecidableEq, Repr

namespace Access

instance : Monad Access where
  pure := .value
  bind x f :=
    match x with
    | .outside => .outside
    | .refused => .refused
    | .value a => f a

/-- `if (!b) goto bad;` -/
def need (b : Bool) : Access Unit := if b then .value () else .refused

def ofOption {α : Type} : Option α → Access α
  | none => .refused
  | some a => .value a

/-- `a && b` and `a || b`: the second operand may not be looked at. -/
def both (a b : Access Bool) : Access Bool := a >>= fun x => if x then b else .value false

def either (a b : Access Bool) : Access Bool := a >>= fun x => if x then .value true else b

section Rules

variable {α β : Type}

@[simp] theorem pure_eq (a : α) : (pure a : Access α) = .value a := rfl

@[simp] theorem value_bind (a : α) (f : α → Access β) : (Access.value a >>= f) = f a := rfl

@[simp] theorem refused_bind (f : α → Access β) : ((.refused : Access α) >>= f) = .refused := rfl

@[simp] theorem ofOption_none : ofOption (none : Option α) = .refused := rfl

@[simp] theorem ofOption_some (a : α) : ofOption (some a) = .value a := rfl

@[simp] theorem need_bind (b : Bool) (f : Unit → Access β) :
    (need b >>= f) = if b then f () else .refused := by
  cases b <;> rfl

@[simp] theorem both_value (a b : Bool) : both (.value a) (.value b) = .value (a && b) := by
  cases a <;> rfl

@[simp] theorem either_value (a b : Bool) : either (.value a) (.value b) = .value (a || b) := by
  cases a <;> rfl

end Rules

/-! ### Agreement with a reader of lists -/

/-- The program refuses when the reader does, and else both have results that
belong together. -/
def Agrees {α β : Type} (R : α → β → Prop) (x : Access α) (o : Option β) : Prop :=
  (x = .refused ∧ o = none) ∨ ∃ a b, x = .value a ∧ o = some b ∧ R a b

theorem Agrees.refused {α β : Type} {R : α → β → Prop} : Agrees R .refused none := Or.inl ⟨rfl, rfl⟩

theorem Agrees.value {α β : Type} {R : α → β → Prop} {a : α} {b : β} (h : R a b) :
    Agrees R (.value a) (some b) := Or.inr ⟨a, b, rfl, rfl, h⟩

theorem Agrees.map {α β γ δ : Type} {R : α → β → Prop} {S : γ → δ → Prop} {x : Access α}
    {o : Option β} {f : α → γ} {g : β → δ} (h : Agrees R x o) (hfg : ∀ a b, R a b → S (f a) (g b)) :
    Agrees S (x >>= fun a => pure (f a)) (o.map g) := by
  obtain ⟨rfl, rfl⟩ | ⟨a, b, rfl, rfl, hab⟩ := h
  · exact .refused
  · exact .value (hfg a b hab)

theorem Agrees.eq {α : Type} {x : Access α} {o : Option α} (h : Agrees (· = ·) x o) : x = ofOption o := by
  obtain ⟨rfl, rfl⟩ | ⟨a, b, rfl, rfl, rfl⟩ := h <;> rfl

/-- One check of the program against one of the reader. -/
theorem Agrees.guard {α β : Type} {R : α → β → Prop} {p q : Prop} [Decidable p] [Decidable q]
    {x : Access α} {o : Option β} (hpq : p ↔ ¬ q) (h : p → Agrees R x o) :
    Agrees R (if p then x else .refused) (if q then none else o) := by
  by_cases hp : p
  · rw [if_pos hp, if_neg (hpq.mp hp)]
    exact h hp
  · rw [if_neg hp, if_pos (by by_contra hq; exact hp (hpq.mpr hq))]
    exact .refused

end Access

/-! ### The accesses -/

/-- The byte at an offset. -/
def byteAt (data : Bytes) (pos : ℕ) : Access Byte :=
  match data[pos]? with
  | none => .outside
  | some c => .value c

/-- `n` bytes from an offset. -/
def bytesAt (data : Bytes) (pos n : ℕ) : Access Bytes :=
  if pos + n ≤ data.length then .value ((data.drop pos).take n) else .outside

/-- `n` bytes copied into an array of `cap`, with a NUL behind them. -/
def copyInto (cap : ℕ) (data : Bytes) (pos n : ℕ) : Access Bytes :=
  if n < cap then bytesAt data pos n else .outside

/-- A four-byte number at an offset. -/
def numberAt (data : Bytes) (pos : ℕ) : Access ℕ := bytesAt data pos 4 >>= fun s => pure (littleValue s)

theorem bytesAt_eq {data : Bytes} {pos n : ℕ} (h : pos + n ≤ data.length) :
    bytesAt data pos n = .value ((data.drop pos).take n) := if_pos h

theorem copyInto_eq {cap : ℕ} {data : Bytes} {pos n : ℕ} (hn : n < cap) (h : pos + n ≤ data.length) :
    copyInto cap data pos n = .value ((data.drop pos).take n) := by
  rw [copyInto, if_pos hn, bytesAt_eq h]

theorem window_length {data : Bytes} {pos n : ℕ} (h : pos + n ≤ data.length) :
    ((data.drop pos).take n).length = n := by
  simp only [List.length_take, List.length_drop]
  omega

/-- The first byte of a window is read where the window starts. -/
theorem window_cons {data : Bytes} {pos n : ℕ} (h : pos + (n + 1) ≤ data.length) :
    ∃ c, byteAt data pos = .value c ∧
      (data.drop pos).take (n + 1) = c :: (data.drop (pos + 1)).take n := by
  have hlt : pos < data.length := by omega
  refine ⟨data[pos], ?_, ?_⟩
  · rw [byteAt, List.getElem?_eq_getElem hlt]
  · rw [List.drop_eq_getElem_cons hlt, List.take_succ_cons]

/-- A bounds-checked number agrees with the one read off the rest. -/
theorem numberAt_agrees {data : Bytes} {pos : ℕ} (h : pos + 4 ≤ data.length) :
    ∃ n, numberAt data pos = .value n ∧ readNumber 4 (data.drop pos) = some (n, data.drop (pos + 4)) := by
  refine ⟨littleValue ((data.drop pos).take 4), ?_, ?_⟩
  · rw [numberAt, bytesAt_eq h]
    rfl
  · rw [readNumber, window_length h, if_neg (by omega), List.drop_drop]

end JaroFilter.Lib
