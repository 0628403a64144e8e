import Mathlib

/-!
# Programs of system calls

A program looks at the state and makes calls, each of which reports success or
failure. The state between two calls is what a crash leaves behind. `Safe`
states an invariant of all those states together with a postcondition, and
`Survives` states what is left when one call fails and the rest goes on.
-/

namespace JaroFilter.Lib

inductive Prog (σ κ α : Type) where
  | done (a : α)
  | look (k : σ → Prog σ κ α)
  | call (c : κ) (k : Bool → Prog σ κ α)

namespace Prog

variable {σ κ α β : Type}

def bind : Prog σ κ α → (α → Prog σ κ β) → Prog σ κ β
  | done a, f => f a
  | look k, f => look fun s => bind (k s) f
  | call c k, f => call c fun ok => bind (k ok) f

instance : Monad (Prog σ κ) where
  pure := done
  bind := bind

/-- The state as it stands. -/
def state : Prog σ κ σ := look done

/-- One call. -/
def make (c : κ) : Prog σ κ Bool := call c done

/-- Goes on while the steps succeed, as `a || b || c` does over error codes. -/
def both (p q : Prog σ κ Bool) : Prog σ κ Bool := bind p fun ok => if ok then q else done false

/-- A loop that ends at its first failure. -/
def each {ι : Type} : List ι → (ι → Prog σ κ Bool) → Prog σ κ Bool
  | [], _ => done true
  | i :: is, f => both (f i) (each is f)

/-- What calls do, and what a call cut short may leave besides its old and its
new state. -/
structure Machine (σ κ : Type) where
  exec : κ → σ → Bool × σ
  torn : κ → σ → σ → Prop

variable (M : Machine σ κ)

def run : Prog σ κ α → σ → α × σ
  | done a, s => (a, s)
  | look k, s => run (k s) s
  | call c k, s => run (k (M.exec c s).1) (M.exec c s).2

theorem run_bind (p : Prog σ κ α) (f : α → Prog σ κ β) (s : σ) :
    run M (bind p f) s = run M (f (run M p s).1) (run M p s).2 := by
  induction p generalizing s with
  | done a => rfl
  | look k ih => exact ih s s
  | call c k ih => exact ih _ _

/-! ### Crashes -/

/-- The program was started in `s` and killed: `t` is what it left. -/
inductive Crash : Prog σ κ α → σ → σ → Prop
  | stop (p : Prog σ κ α) (s : σ) : Crash p s s
  | look {k : σ → Prog σ κ α} {s t : σ} : Crash (k s) s t → Crash (.look k) s t
  | torn {c : κ} {k : Bool → Prog σ κ α} {s t : σ} : M.torn c s t → Crash (.call c k) s t
  | step {c : κ} {k : Bool → Prog σ κ α} {s t : σ} :
      Crash (k (M.exec c s).1) (M.exec c s).2 t → Crash (.call c k) s t

theorem crash_run (p : Prog σ κ α) (s : σ) : Crash M p s (run M p s).2 := by
  induction p generalizing s with
  | done a => exact .stop _ s
  | look k ih => exact .look (ih s s)
  | call c k ih => exact .step (ih _ _)

/-- A crash in the first part is one of the whole. -/
theorem crash_left {p : Prog σ κ α} {f : α → Prog σ κ β} {s t : σ} (h : Crash M p s t) :
    Crash M (bind p f) s t := by
  induction h with
  | stop p s => exact .stop _ s
  | look _ ih => exact .look ih
  | torn ht => exact .torn ht
  | step _ ih => exact .step ih

/-- So is one in what follows a first part that went through. -/
theorem crash_bind {p : Prog σ κ α} {f : α → Prog σ κ β} {s t : σ}
    (h : Crash M (f (run M p s).1) (run M p s).2 t) : Crash M (bind p f) s t := by
  induction p generalizing s with
  | done a => exact h
  | look k ih => exact .look (ih s h)
  | call c k ih => exact .step (ih _ h)

/-- `I` holds after every call, also one cut short, and `Q` of the result. -/
def Safe (I : σ → Prop) : Prog σ κ α → σ → (α → σ → Prop) → Prop
  | done a, s, Q => Q a s
  | look k, s, Q => Safe I (k s) s Q
  | call c k, s, Q => (∀ t, M.torn c s t → I t) ∧ I (M.exec c s).2 ∧
      Safe I (k (M.exec c s).1) (M.exec c s).2 Q

theorem safe_done {I : σ → Prop} {a : α} {s : σ} {Q : α → σ → Prop} (h : Q a s) :
    Safe M I (done a) s Q := h

theorem safe_look {I : σ → Prop} {k : σ → Prog σ κ α} {s : σ} {Q : α → σ → Prop}
    (h : Safe M I (k s) s Q) : Safe M I (look k) s Q := h

theorem safe_make {I : σ → Prop} {c : κ} {s : σ} {Q : Bool → σ → Prop}
    (hT : ∀ t, M.torn c s t → I t) (hI : I (M.exec c s).2) (hQ : Q (M.exec c s).1 (M.exec c s).2) :
    Safe M I (make c) s Q := ⟨hT, hI, hQ⟩

theorem safe_bind {I : σ → Prop} {p : Prog σ κ α} {f : α → Prog σ κ β} {s : σ} {Q : β → σ → Prop}
    (h : Safe M I p s fun a t => Safe M I (f a) t Q) : Safe M I (bind p f) s Q := by
  induction p generalizing s with
  | done a => exact h
  | look k ih => exact ih s h
  | call c k ih => exact ⟨h.1, h.2.1, ih _ h.2.2⟩

theorem safe_mono {I J : σ → Prop} {p : Prog σ κ α} {s : σ} {Q R : α → σ → Prop}
    (h : Safe M I p s Q) (hI : ∀ t, I t → J t) (hQ : ∀ a t, Q a t → R a t) : Safe M J p s R := by
  induction p generalizing s with
  | done a => exact hQ a s h
  | look k ih => exact ih s h
  | call c k ih => exact ⟨fun t ht => hI t (h.1 t ht), hI _ h.2.1, ih _ h.2.2⟩

/-- The second step only runs after a success. -/
theorem safe_both {I : σ → Prop} {p q : Prog σ κ Bool} {s : σ} {Q : Bool → σ → Prop}
    (h : Safe M I p s fun ok t => if ok then Safe M I q t Q else Q false t) :
    Safe M I (both p q) s Q := by
  apply safe_bind
  apply safe_mono M h (fun _ ht => ht)
  intro ok t ht
  cases ok with
  | true => exact ht
  | false => exact ht

/-- A loop keeps what each of its steps keeps. -/
theorem safe_each {ι : Type} {I : σ → Prop} {f : ι → Prog σ κ Bool} {P : List ι → σ → Prop}
    {is : List ι} {s : σ} (h : P is s)
    (hstep : ∀ i rest t, P (i :: rest) t → Safe M I (f i) t fun ok u => ok = true ∧ P rest u) :
    Safe M I (each is f) s fun ok t => ok = true ∧ P [] t := by
  induction is generalizing s with
  | nil => exact ⟨rfl, h⟩
  | cons i is ih =>
    apply safe_both
    apply safe_mono M (hstep i is s h) (fun _ ht => ht)
    intro ok t ht
    rw [if_pos ht.1]
    exact ih ht.2

theorem safe_crash {I : σ → Prop} {p : Prog σ κ α} {s t : σ} {Q : α → σ → Prop} (hs : I s)
    (h : Safe M I p s Q) (hc : Crash M p s t) : I t := by
  induction hc with
  | stop => exact hs
  | look _ ih => exact ih hs h
  | torn ht => exact h.1 _ ht
  | step _ ih => exact ih h.2.1 h.2.2

theorem safe_run {I : σ → Prop} {p : Prog σ κ α} {s : σ} {Q : α → σ → Prop} (h : Safe M I p s Q) :
    Q (run M p s).1 (run M p s).2 := by
  induction p generalizing s with
  | done a => exact h
  | look k ih => exact ih s h
  | call c k ih => exact ih _ h.2.2

/-! ### A single failing call -/

/-- One call at a `site` fails, and the program goes on from what it left. -/
inductive Fault (site : κ → Prop) : Prog σ κ α → σ → α × σ → Prop
  | here {c : κ} {k : Bool → Prog σ κ α} {s t : σ} : site c → t = s ∨ M.torn c s t →
      Fault site (.call c k) s (run M (k false) t)
  | look {k : σ → Prog σ κ α} {s : σ} {r : α × σ} : Fault site (k s) s r → Fault site (.look k) s r
  | later {c : κ} {k : Bool → Prog σ κ α} {s : σ} {r : α × σ} :
      Fault site (k (M.exec c s).1) (M.exec c s).2 r → Fault site (.call c k) s r

theorem fault_look {site : κ → Prop} {k : σ → Prog σ κ α} {s : σ} {r : α × σ}
    (h : Fault M site (look k) s r) : Fault M site (k s) s r := by
  cases h with
  | look h => exact h

theorem not_fault_done {site : κ → Prop} {a : α} {s : σ} {r : α × σ} :
    ¬ Fault M site (done a) s r := by
  intro h
  cases h

theorem fault_bind {site : κ → Prop} {p : Prog σ κ α} {f : α → Prog σ κ β} {s : σ} {r : β × σ}
    (h : Fault M site (bind p f) s r) :
    (∃ x, Fault M site p s x ∧ r = run M (f x.1) x.2) ∨
      Fault M site (f (run M p s).1) (run M p s).2 r := by
  induction p generalizing s with
  | done a => exact Or.inr h
  | look k ih =>
    cases h with
    | look h =>
      rcases ih s h with ⟨x, hx, hr⟩ | hr
      · exact Or.inl ⟨x, .look hx, hr⟩
      · exact Or.inr hr
  | call c k ih =>
    cases h with
    | here hsite ht =>
      refine Or.inl ⟨_, .here hsite ht, ?_⟩
      exact run_bind M _ f _
    | later h =>
      rcases ih _ h with ⟨x, hx, hr⟩ | hr
      · exact Or.inl ⟨x, .later hx, hr⟩
      · exact Or.inr hr

theorem fault_left {site : κ → Prop} {p : Prog σ κ α} {s : σ} {x : α × σ} (f : α → Prog σ κ β)
    (h : Fault M site p s x) : Fault M site (bind p f) s (run M (f x.1) x.2) := by
  induction h with
  | here hsite ht =>
    rw [← run_bind]
    exact .here hsite ht
  | look _ ih => exact .look ih
  | later _ ih => exact .later ih

theorem fault_right {site : κ → Prop} {p : Prog σ κ α} {f : α → Prog σ κ β} {s : σ} {r : β × σ}
    (h : Fault M site (f (run M p s).1) (run M p s).2 r) : Fault M site (bind p f) s r := by
  induction p generalizing s with
  | done a => exact h
  | look k ih => exact .look (ih s h)
  | call c k ih => exact .later (ih _ h)

/-- A program that ends with `false` as soon as one of its calls fails. -/
def Fast : Prog σ κ Bool → Prop
  | done _ => True
  | look k => ∀ s, Fast (k s)
  | call _ k => k false = done false ∧ Fast (k true)

theorem fast_look {k : σ → Prog σ κ Bool} (h : ∀ s, Fast (k s)) : Fast (look k) := h

theorem fast_make (c : κ) : Fast (make c : Prog σ κ Bool) := ⟨rfl, trivial⟩

theorem fast_both {p q : Prog σ κ Bool} (hp : Fast p) (hq : Fast q) : Fast (both p q) := by
  induction p with
  | done ok =>
    cases ok with
    | true => exact hq
    | false => trivial
  | look k ih => exact fun s => ih s (hp s)
  | call c k ih =>
    refine ⟨?_, ih true hp.2⟩
    show bind (k false) _ = done false
    rw [hp.1]
    rfl

theorem fast_each {ι : Type} {is : List ι} {f : ι → Prog σ κ Bool} (h : ∀ i ∈ is, Fast (f i)) :
    Fast (each is f) := by
  induction is with
  | nil => trivial
  | cons i is ih => exact fast_both (h i (by simp)) (ih fun j hj => h j (by simp [hj]))

/-- A failed call of such a program leaves a state of its invariant. -/
theorem fault_fast {site : κ → Prop} {I : σ → Prop} {p : Prog σ κ Bool} {s : σ} {r : Bool × σ}
    {Q : Bool → σ → Prop} (hp : Fast p) (hs : I s) (h : Safe M I p s Q) (hf : Fault M site p s r) :
    r.1 = false ∧ I r.2 := by
  induction hf with
  | here _ ht =>
    rw [hp.1]
    refine ⟨rfl, ?_⟩
    rcases ht with rfl | ht
    · exact hs
    · exact h.1 _ ht
  | look _ ih => exact ih (hp _) hs h
  | @later c k s r hf ih =>
    by_cases hok : (M.exec c s).1 = true
    · rw [hok] at ih hf
      exact ih hp.2 h.2.1 (by rw [← hok]; exact h.2.2)
    · have hfalse : (M.exec c s).1 = false := by simpa using hok
      rw [hfalse, hp.1] at hf
      cases hf

/-- Every call the program can make. -/
def Calls (P : κ → Prop) : Prog σ κ α → Prop
  | done _ => True
  | look k => ∀ s, Calls P (k s)
  | call c k => P c ∧ ∀ ok, Calls P (k ok)

theorem calls_look {P : κ → Prop} {k : σ → Prog σ κ α} (h : ∀ s, Calls P (k s)) : Calls P (look k) := h

theorem calls_bind {P : κ → Prop} {p : Prog σ κ α} {f : α → Prog σ κ β} (hp : Calls P p)
    (hf : ∀ a, Calls P (f a)) : Calls P (bind p f) := by
  induction p with
  | done a => exact hf a
  | look k ih => exact fun s => ih s (hp s)
  | call c k ih => exact ⟨hp.1, fun ok => ih ok (hp.2 ok)⟩

theorem calls_both {P : κ → Prop} {p q : Prog σ κ Bool} (hp : Calls P p) (hq : Calls P q) :
    Calls P (both p q) := by
  apply calls_bind hp
  intro ok
  cases ok with
  | true => exact hq
  | false => trivial

theorem calls_each {ι : Type} {P : κ → Prop} {is : List ι} {f : ι → Prog σ κ Bool}
    (h : ∀ i ∈ is, Calls P (f i)) : Calls P (each is f) := by
  induction is with
  | nil => trivial
  | cons i is ih => exact calls_both (h i (by simp)) (ih fun j hj => h j (by simp [hj]))

/-- What every such call keeps, the program keeps. -/
theorem run_keeps {P : κ → Prop} {J : σ → Prop} {p : Prog σ κ α} {s : σ}
    (hJ : ∀ c s, P c → J s → J (M.exec c s).2) (hp : Calls P p) (hs : J s) : J (run M p s).2 := by
  induction p generalizing s with
  | done a => exact hs
  | look k ih => exact ih s (hp s) hs
  | call c k ih => exact ih _ (hp.2 _) (hJ c s hp.1 hs)

theorem fault_keeps {site : κ → Prop} {P : κ → Prop} {J : σ → Prop} {p : Prog σ κ α} {s : σ} {r : α × σ}
    (hJ : ∀ c s, P c → J s → J (M.exec c s).2) (hT : ∀ c s t, P c → M.torn c s t → J s → J t)
    (hp : Calls P p) (hs : J s) (hf : Fault M site p s r) : J r.2 := by
  induction hf with
  | @here c k s t _ ht =>
    apply run_keeps M hJ (hp.2 false)
    rcases ht with rfl | ht
    · exact hs
    · exact hT c s t hp.1 ht hs
  | look _ ih => exact ih (hp _) hs
  | later _ ih => exact ih (hp.2 _) (hJ _ _ hp.1 hs)

/-- No call can fail where the program makes none. -/
theorem not_fault_of_calls {site : κ → Prop} {p : Prog σ κ α} {s : σ} {r : α × σ}
    (hp : Calls (fun c => ¬ site c) p) : ¬ Fault M site p s r := by
  intro hf
  induction hf with
  | here hsite _ => exact hp.1 hsite
  | look _ ih => exact ih (hp _)
  | later _ ih => exact ih (hp.2 _)

end Prog

end JaroFilter.Lib
