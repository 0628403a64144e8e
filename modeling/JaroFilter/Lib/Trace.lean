import Mathlib

/-!
# Runs of labelled machines

A machine takes one action at a time and leaves events behind. An invariant ties
the events of a run to the state it stands in; a relation between an event and
the ones behind it is an invariant of this kind.
-/

namespace JaroFilter.Lib

/-- A start and the actions possible in each state. -/
structure Labelled (σ ι ε : Type) where
  start : σ
  act : σ → ι → Option (σ × List ε)

variable {σ ι ε : Type}

/-- The events of a run, in order, and the state behind it. -/
inductive Labelled.Runs (M : Labelled σ ι ε) : List ε → σ → Prop where
  | start : Runs M [] M.start
  | act {tr : List ε} {s s' : σ} {a : ι} {es : List ε} (h : Runs M tr s)
    (ha : M.act s a = some (s', es)) : Runs M (tr ++ es) s'

variable {M : Labelled σ ι ε}

/-- The invariant rule. -/
theorem Labelled.Runs.invariant {P : List ε → σ → Prop} (h0 : P [] M.start)
    (hact : ∀ {tr s a s' es}, M.Runs tr s → P tr s → M.act s a = some (s', es) → P (tr ++ es) s')
    {tr : List ε} {s : σ} (h : M.Runs tr s) : P tr s := by
  induction h with
  | start => exact h0
  | act h ha ih => exact hact h ih ha

/-- What each event is to those behind it. -/
theorem Labelled.Runs.pairwise {R : ε → ε → Prop}
    (hact : ∀ {tr s a s' es}, M.Runs tr s → M.act s a = some (s', es) →
      (∀ e ∈ tr, ∀ e' ∈ es, R e e') ∧ es.Pairwise R) {tr : List ε} {s : σ} (h : M.Runs tr s) :
    tr.Pairwise R := by
  induction h with
  | start => exact List.Pairwise.nil
  | act h ha ih =>
    obtain ⟨hcross, hnew⟩ := hact h ha
    exact List.pairwise_append.mpr ⟨ih, hnew, hcross⟩

/-- Actions one after the other. -/
def Labelled.exec (M : Labelled σ ι ε) : List ι → List ε → σ → Option (List ε × σ)
  | [], tr, s => some (tr, s)
  | a :: as, tr, s => (M.act s a).bind fun x => exec M as (tr ++ x.2) x.1

theorem Labelled.exec_runs {as : List ι} {tr tr' : List ε} {s s' : σ} (h : M.Runs tr s)
    (he : M.exec as tr s = some (tr', s')) : M.Runs tr' s' := by
  induction as generalizing tr s with
  | nil =>
    cases he
    exact h
  | cons a as ih =>
    obtain ⟨x, hx, he⟩ := Option.bind_eq_some_iff.mp he
    exact ih (h.act hx) he

/-! ### One slot of many -/

/-- The values of a partial function on a list of distinct places. -/
theorem filterMap_update_none {κ α : Type} [DecidableEq κ] {l : List κ} (hl : l.Nodup) {k : κ}
    (hk : k ∈ l) {f : κ → Option α} {x : α} (hf : f k = none) :
    (l.filterMap (Function.update f k (some x))).Perm (x :: l.filterMap f) := by
  obtain ⟨a, b, rfl⟩ := List.append_of_mem hk
  rw [List.nodup_append, List.nodup_cons] at hl
  obtain ⟨-, ⟨hb, -⟩, hab⟩ := hl
  have ha : ∀ j ∈ a, Function.update f k (some x) j = f j := fun j hj =>
    Function.update_of_ne (hab j hj k (by simp)) _ _
  have hb' : ∀ j ∈ b, Function.update f k (some x) j = f j := fun j hj =>
    Function.update_of_ne (fun he => hb (by rwa [← he])) _ _
  simp only [List.filterMap_append, List.filterMap_cons, Function.update_self, hf]
  rw [List.filterMap_congr ha, List.filterMap_congr hb']
  exact List.perm_middle

theorem filterMap_update_some {κ α : Type} [DecidableEq κ] {l : List κ} (hl : l.Nodup) {k : κ}
    (hk : k ∈ l) {f : κ → Option α} {x : α} (hf : f k = some x) :
    (l.filterMap f).Perm (x :: l.filterMap (Function.update f k none)) := by
  have hself : Function.update (Function.update f k none) k (some x) = f := by
    rw [Function.update_idem, ← hf, Function.update_eq_self]
  have hperm := filterMap_update_none hl hk (f := Function.update f k none) (x := x)
    (Function.update_self k none f)
  rwa [hself] at hperm

end JaroFilter.Lib
