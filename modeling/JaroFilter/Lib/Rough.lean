import JaroFilter.Lib.Program

/-!
# Rough runs

A run in which any number of calls fail, each with or without a part of its
effect, and which may be killed between two calls. A program that ends at its
first failure (`Stops`) leaves a state of its invariant or reaches its
postcondition, so that `Safe`, shown for the calls that succeed, is enough.
-/

namespace JaroFilter.Lib

namespace Prog

variable {σ κ α β : Type} (M : Machine σ κ)

/-- A rough run; one that was killed has no result. -/
inductive Rough : Prog σ κ α → σ → Option α × σ → Prop
  | killed (p : Prog σ κ α) (s : σ) : Rough p s (none, s)
  | done (a : α) (s : σ) : Rough (.done a) s (some a, s)
  | look {k : σ → Prog σ κ α} {s : σ} {r : Option α × σ} : Rough (k s) s r → Rough (.look k) s r
  | step {c : κ} {k : Bool → Prog σ κ α} {s : σ} {r : Option α × σ} :
      Rough (k (M.exec c s).1) (M.exec c s).2 r → Rough (.call c k) s r
  | fails {c : κ} {k : Bool → Prog σ κ α} {s t : σ} {r : Option α × σ} :
      t = s ∨ M.torn c s t → Rough (k false) t r → Rough (.call c k) s r

/-- The run without failures is one. -/
theorem rough_run (p : Prog σ κ α) (s : σ) : Rough M p s (some (run M p s).1, (run M p s).2) := by
  induction p generalizing s with
  | done a => exact .done a s
  | look k ih => exact .look (ih s s)
  | call c k ih => exact .step (ih _ _)

/-- A rough run of a sequence is killed in its first part, or goes on behind it. -/
theorem rough_bind {p : Prog σ κ α} {f : α → Prog σ κ β} {s : σ} {r : Option β × σ}
    (h : Rough M (bind p f) s r) :
    (r.1 = none ∧ Rough M p s (none, r.2)) ∨ ∃ a t, Rough M p s (some a, t) ∧ Rough M (f a) t r := by
  induction p generalizing s with
  | done a => exact .inr ⟨a, s, .done a s, h⟩
  | look k ih =>
    cases h with
    | killed => exact .inl ⟨rfl, .killed _ _⟩
    | look h =>
      obtain ⟨hr, hp⟩ | ⟨a, t, hp, hf⟩ := ih s h
      · exact .inl ⟨hr, .look hp⟩
      · exact .inr ⟨a, t, .look hp, hf⟩
  | call c k ih =>
    cases h with
    | killed => exact .inl ⟨rfl, .killed _ _⟩
    | step h =>
      obtain ⟨hr, hp⟩ | ⟨a, t, hp, hf⟩ := ih _ h
      · exact .inl ⟨hr, .step hp⟩
      · exact .inr ⟨a, t, .step hp, hf⟩
    | fails ht h =>
      obtain ⟨hr, hp⟩ | ⟨a, t, hp, hf⟩ := ih _ h
      · exact .inl ⟨hr, .fails ht hp⟩
      · exact .inr ⟨a, t, .fails ht hp, hf⟩

theorem rough_done {a : α} {s : σ} {r : Option α × σ} (h : Rough M (done a) s r) :
    r = (none, s) ∨ r = (some a, s) := by
  cases h with
  | killed => exact .inl rfl
  | done => exact .inr rfl

/-- A look shows the state, unless the run is killed before. -/
theorem rough_look {k : σ → Prog σ κ α} {s : σ} {r : Option α × σ} (h : Rough M (look k) s r) :
    Rough M (k s) s r := by
  cases h with
  | killed => exact .killed _ _
  | look h => exact h

/-- What every call keeps, with all of its effect, a part or none. -/
theorem rough_keeps {P : κ → Prop} {J : σ → Prop} {p : Prog σ κ α} {s : σ} {r : Option α × σ}
    (hJ : ∀ c s, P c → J s → J (M.exec c s).2) (hT : ∀ c s t, P c → M.torn c s t → J s → J t)
    (hp : Calls P p) (hs : J s) (h : Rough M p s r) : J r.2 := by
  induction h with
  | killed => exact hs
  | done => exact hs
  | look _ ih => exact ih (hp _) hs
  | step _ ih => exact ih (hp.2 _) (hJ _ _ hp.1 hs)
  | @fails c k s t r ht _ ih =>
    refine ih (hp.2 _) ?_
    rcases ht with rfl | ht
    · exact hs
    · exact hT c s t hp.1 ht hs

theorem calls_any (p : Prog σ κ α) : Calls (fun _ => True) p := by
  induction p with
  | done a => trivial
  | look k ih => exact ih
  | call c k ih => exact ⟨trivial, ih⟩

theorem bind_assoc {γ : Type} (p : Prog σ κ α) (f : α → Prog σ κ β) (g : β → Prog σ κ γ) :
    bind (bind p f) g = bind p fun a => bind (f a) g := by
  induction p with
  | done a => rfl
  | look k ih => exact congrArg look (funext ih)
  | call c k ih => exact congrArg (call c) (funext ih)

theorem bind_done (p : Prog σ κ α) : bind p done = p := by
  induction p with
  | done a => rfl
  | look k ih => exact congrArg look (funext ih)
  | call c k ih => exact congrArg (call c) (funext ih)

theorem calls_mono {P Q : κ → Prop} (h : ∀ c, P c → Q c) {p : Prog σ κ α} (hp : Calls P p) : Calls Q p := by
  induction p with
  | done a => trivial
  | look k ih => exact fun s => ih s (hp s)
  | call c k ih => exact ⟨h c hp.1, fun ok => ih ok (hp.2 ok)⟩

/-! ### Programs that end at a failure -/

/-- A program whose first failing call ends it, with a bad result. -/
def Stops (bad : α → Prop) : Prog σ κ α → Prop
  | done _ => True
  | look k => ∀ s, Stops bad (k s)
  | call _ k => (∃ a, k false = done a ∧ bad a) ∧ Stops bad (k true)

theorem stops_of_fast {p : Prog σ κ Bool} (hp : Fast p) : Stops (· = false) p := by
  induction p with
  | done ok => trivial
  | look k ih => exact fun s => ih s (hp s)
  | call c k ih => exact ⟨⟨false, hp.1, rfl⟩, ih true hp.2⟩

theorem stops_bind {bad : β → Prop} {p : Prog σ κ Bool} {f : Bool → Prog σ κ β} (hp : Fast p)
    (hfalse : ∃ b, f false = done b ∧ bad b) (htrue : Stops bad (f true)) : Stops bad (bind p f) := by
  induction p with
  | done ok =>
    cases ok with
    | true => exact htrue
    | false =>
      obtain ⟨b, hb, -⟩ := hfalse
      show Stops bad (f false)
      rw [hb]
      trivial
  | look k ih => exact fun s => ih s (hp s)
  | call c k ih =>
    refine ⟨?_, ih true hp.2⟩
    obtain ⟨b, hb, hbad⟩ := hfalse
    refine ⟨b, ?_, hbad⟩
    show bind (k false) f = done b
    rw [hp.1]
    exact hb

/-- Such a program leaves a state of its invariant, and has succeeded throughout
where its result is not bad. -/
theorem rough_stops {bad : α → Prop} {I : σ → Prop} {Q : α → σ → Prop} {p : Prog σ κ α} {s : σ}
    {r : Option α × σ} (hp : Stops bad p) (hs : I s) (hsafe : Safe M I p s Q) (h : Rough M p s r) :
    I r.2 ∧ ∀ a, r.1 = some a → bad a ∨ Q a r.2 := by
  induction h with
  | killed => exact ⟨hs, fun a ha => by cases ha⟩
  | done a s =>
    refine ⟨hs, fun b hb => ?_⟩
    cases hb
    exact .inr hsafe
  | look _ ih => exact ih (hp _) hs hsafe
  | @step c k s r hrest ih =>
    obtain ⟨⟨a, ha, -⟩, htrue⟩ := hp
    obtain ⟨-, hI, hsafe⟩ := hsafe
    cases hok : (M.exec c s).1 with
    | true =>
      rw [hok] at ih hsafe
      exact ih htrue hI hsafe
    | false =>
      rw [hok, ha] at hrest hsafe
      obtain rfl | rfl := rough_done M hrest
      · exact ⟨hI, fun b hb => by cases hb⟩
      · refine ⟨hI, fun b hb => ?_⟩
        cases hb
        exact .inr hsafe
  | @fails c k s t r ht hrest _ =>
    obtain ⟨⟨a, ha, hbad⟩, -⟩ := hp
    have hI : I t := by
      rcases ht with rfl | ht
      · exact hs
      · exact hsafe.1 t ht
    rw [ha] at hrest
    obtain rfl | rfl := rough_done M hrest
    · exact ⟨hI, fun b hb => by cases hb⟩
    · refine ⟨hI, fun b hb => ?_⟩
      cases hb
      exact .inl hbad

/-- A fast program that reports success has run without a failure. -/
theorem rough_fast_true {p : Prog σ κ Bool} {s : σ} {r : Option Bool × σ} (hp : Fast p)
    (h : Rough M p s r) (hr : r.1 = some true) : run M p s = (true, r.2) := by
  induction h with
  | killed => cases hr
  | done a s =>
    cases hr
    rfl
  | look _ ih => exact ih (hp _) hr
  | @step c k s r hrest ih =>
    cases hok : (M.exec c s).1 with
    | true =>
      rw [hok] at ih
      rw [run, hok]
      exact ih hp.2 hr
    | false =>
      rw [hok, hp.1] at hrest
      obtain rfl | rfl := rough_done M hrest <;> cases hr
  | fails _ hrest _ =>
    rw [hp.1] at hrest
    obtain rfl | rfl := rough_done M hrest <;> cases hr

end Prog

end JaroFilter.Lib
