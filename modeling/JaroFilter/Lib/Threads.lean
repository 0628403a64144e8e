import JaroFilter.Lib.Program

/-!
# Programs beside other processes

Several programs run beside each other and beside processes of their own will.
Each has a state that only it changes, and all share one. `Holds` follows one
program alone: since what it keeps to itself is out of the others' reach, what it
does there needs no interleaving. `reach_holds` then carries an invariant of the
shared state over all interleavings of any number of them.
-/

namespace JaroFilter.Lib

namespace Prog

variable {σ κ α β τ ω ι : Type}

/-! ### One program -/

/-- Every call is made where `G` allows it, and `Q` holds of the result, whatever
the calls answer and the looks show. -/
def Holds (own : κ → τ → Bool → τ → Prop) (G : κ → τ → Prop) : Prog σ κ α → τ → (α → τ → Prop) → Prop
  | done a, x, Q => Q a x
  | look k, x, Q => ∀ s, Holds own G (k s) x Q
  | call c k, x, Q => G c x ∧ ∀ ok y, own c x ok y → Holds own G (k ok) y Q

variable {own : κ → τ → Bool → τ → Prop} {G : κ → τ → Prop}

theorem holds_bind {p : Prog σ κ α} {f : α → Prog σ κ β} {x : τ} {Q : β → τ → Prop}
    (h : Holds own G p x fun a y => Holds own G (f a) y Q) : Holds own G (bind p f) x Q := by
  induction p generalizing x with
  | done a => exact h
  | look k ih => exact fun s => ih s (h s)
  | call c k ih => exact ⟨h.1, fun ok y hy => ih ok (h.2 ok y hy)⟩

theorem holds_mono {p : Prog σ κ α} {x : τ} {P Q : α → τ → Prop} (h : Holds own G p x P)
    (hQ : ∀ a y, P a y → Q a y) : Holds own G p x Q := by
  induction p generalizing x with
  | done a => exact hQ a x h
  | look k ih => exact fun s => ih s (h s)
  | call c k ih => exact ⟨h.1, fun ok y hy => ih ok (h.2 ok y hy)⟩

theorem holds_state {x : τ} {Q : σ → τ → Prop} (h : ∀ s, Q s x) : Holds own G state x Q := h

theorem holds_make {c : κ} {x : τ} {Q : Bool → τ → Prop} (hG : G c x)
    (hQ : ∀ ok y, own c x ok y → Q ok y) : Holds own G (make c : Prog σ κ Bool) x Q := ⟨hG, hQ⟩

/-- The second step only runs after a success. -/
theorem holds_both {p q : Prog σ κ Bool} {x : τ} {Q : Bool → τ → Prop}
    (h : Holds own G p x fun ok y => if ok then Holds own G q y Q else Q false y) :
    Holds own G (both p q) x Q := by
  apply holds_bind
  apply holds_mono h
  intro ok y hy
  cases ok with
  | true => exact hy
  | false => exact hy

/-! ### Many programs -/

/-- Programs with what each keeps to itself, and what they share. -/
structure Threads (σ κ α τ ω ι : Type) where
  shared : ω
  program : ι → Prog σ κ α
  hands : ι → τ

variable [DecidableEq ι]

/-- The program of `i` goes on as `p` with `y` in its hands. -/
def Threads.advance (s : Threads σ κ α τ ω ι) (i : ι) (p : Prog σ κ α) (y : τ) (w : ω) :
    Threads σ κ α τ ω ι where
  shared := w
  program := Function.update s.program i p
  hands := Function.update s.hands i y

/-- One step: of the other processes, or of one of the programs. -/
inductive Threads.Step (act : ι → κ → τ × ω → Bool → τ × ω → Prop) (others : ω → ω → Prop) :
    Threads σ κ α τ ω ι → Threads σ κ α τ ω ι → Prop
  | others {s : Threads σ κ α τ ω ι} {w : ω} : others s.shared w → Step act others s { s with shared := w }
  | look {s : Threads σ κ α τ ω ι} {i : ι} {k : σ → Prog σ κ α} (v : σ) : s.program i = .look k →
      Step act others s (s.advance i (k v) (s.hands i) s.shared)
  | call {s : Threads σ κ α τ ω ι} {i : ι} {c : κ} {k : Bool → Prog σ κ α} {ok : Bool} {y : τ} {w : ω} :
      s.program i = .call c k → act i c (s.hands i, s.shared) ok (y, w) →
      Step act others s (s.advance i (k ok) y w)

/-- Any number of steps. A program that is killed makes no further one. -/
abbrev Threads.Reach (act : ι → κ → τ × ω → Bool → τ × ω → Prop) (others : ω → ω → Prop) :
    Threads σ κ α τ ω ι → Threads σ κ α τ ω ι → Prop :=
  Relation.ReflTransGen (Step act others)

/-- What a program has still to do, it does in its own bounds, and `I` holds of
all it shares. -/
structure Threads.Kept (own : ι → κ → τ → Bool → τ → Prop) (G : ι → κ → τ → Prop) (Q : ι → α → τ → Prop)
    (I : ω → (ι → τ) → Prop) (s : Threads σ κ α τ ω ι) : Prop where
  shared : I s.shared s.hands
  holds : ∀ i, Holds (own i) (G i) (s.program i) (s.hands i) (Q i)

section Rule

variable {act : ι → κ → τ × ω → Bool → τ × ω → Prop} {others : ω → ω → Prop}
  {own : ι → κ → τ → Bool → τ → Prop} {G : ι → κ → τ → Prop} {Q : ι → α → τ → Prop} {I : ω → (ι → τ) → Prop}
  {s t : Threads σ κ α τ ω ι}

theorem Threads.holds_advance (h : ∀ i, Holds (own i) (G i) (s.program i) (s.hands i) (Q i)) {i : ι}
    {p : Prog σ κ α} {y : τ} {w : ω} (hp : Holds (own i) (G i) p y (Q i)) (j : ι) :
    Holds (own j) (G j) ((s.advance i p y w).program j) ((s.advance i p y w).hands j) (Q j) := by
  by_cases hj : j = i
  · subst hj
    simp only [advance, Function.update_self]
    exact hp
  · simp only [advance, Function.update_of_ne hj]
    exact h j

/-- One step keeps the invariant and every program's bounds. -/
theorem Threads.Kept.step
    (hown : ∀ i c x w ok y w', act i c (x, w) ok (y, w') → own i c x ok y)
    (hothers : ∀ w w' xs, others w w' → I w xs → I w' xs)
    (hact : ∀ i c w ok y w' xs, G i c (xs i) → act i c (xs i, w) ok (y, w') → I w xs →
      I w' (Function.update xs i y))
    (h : s.Kept own G Q I) (hs : Step act others s t) : t.Kept own G Q I := by
  cases hs with
  | others hw => exact ⟨hothers _ _ _ hw h.shared, h.holds⟩
  | @look i k v hp =>
    have hnext := h.holds i
    rw [hp] at hnext
    refine ⟨?_, holds_advance h.holds (hnext v)⟩
    simp only [advance, Function.update_eq_self]
    exact h.shared
  | @call i c k ok y w hp ha =>
    have hnext := h.holds i
    rw [hp] at hnext
    obtain ⟨hG, hnext⟩ := hnext
    exact ⟨hact i c _ ok y w _ hG ha h.shared, holds_advance h.holds (hnext ok y (hown i c _ _ ok y w ha))⟩

/-- The invariant of all interleavings. -/
theorem Threads.Kept.reach
    (hown : ∀ i c x w ok y w', act i c (x, w) ok (y, w') → own i c x ok y)
    (hothers : ∀ w w' xs, others w w' → I w xs → I w' xs)
    (hact : ∀ i c w ok y w' xs, G i c (xs i) → act i c (xs i, w) ok (y, w') → I w xs →
      I w' (Function.update xs i y))
    (h : s.Kept own G Q I) (hr : Reach act others s t) : t.Kept own G Q I := by
  induction hr with
  | refl => exact h
  | tail _ hs ih => exact ih.step hown hothers hact hs

omit [DecidableEq ι] in
/-- A program that has ended kept its postcondition. -/
theorem Threads.Kept.ended (h : s.Kept own G Q I) {i : ι} {a : α} (hi : s.program i = .done a) :
    Q i a (s.hands i) := by
  have hdone := h.holds i
  rw [hi] at hdone
  exact hdone

end Rule

end Prog

end JaroFilter.Lib
