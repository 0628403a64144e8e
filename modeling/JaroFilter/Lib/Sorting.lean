import Mathlib

/-!
# Sorting and bisection over a three-way comparison

`qsort` with a C-style comparison function, the bisection loop that finds the
first element not before a key, and what both mean for a list kept in the
order of that comparison. The library's lists stand for C arrays.
-/

namespace JaroFilter.Lib

variable {α : Type}

/-! ### Sorting -/

/-- A sorted permutation in the order of a three-way comparison. -/
def qsort (cmp : α → α → Ordering) (l : List α) : List α :=
  l.insertionSort fun a b => (cmp a b).isLE = true

theorem qsort_perm (cmp : α → α → Ordering) (l : List α) : (qsort cmp l).Perm l :=
  List.perm_insertionSort _ l

@[simp] theorem mem_qsort {cmp : α → α → Ordering} {l : List α} {a : α} :
    a ∈ qsort cmp l ↔ a ∈ l :=
  (qsort_perm cmp l).mem_iff

@[simp] theorem length_qsort (cmp : α → α → Ordering) (l : List α) :
    (qsort cmp l).length = l.length :=
  (qsort_perm cmp l).length_eq

section Order

variable (cmp : α → α → Ordering) [Std.TransCmp cmp]

theorem pairwise_qsort (l : List α) : (qsort cmp l).Pairwise fun a b => (cmp a b).isLE = true := by
  have htotal : Std.Total fun a b => (cmp a b).isLE = true :=
    ⟨fun a b => by
      rw [@Std.OrientedCmp.eq_swap α cmp _ b a]
      cases cmp a b <;> simp⟩
  have htrans : IsTrans α fun a b => (cmp a b).isLE = true :=
    ⟨fun _ _ _ h1 h2 => Std.TransCmp.isLE_trans h1 h2⟩
  exact List.pairwise_insertionSort _ l

/-- A list without ties has one sorted permutation: how a sorting routine
treats equal elements cannot matter. -/
theorem eq_qsort_of_perm {l s : List α} (hp : s.Perm l)
    (hs : s.Pairwise fun a b => (cmp a b).isLE = true)
    (hd : ∀ a ∈ l, ∀ b ∈ l, cmp a b = .eq → a = b) : s = qsort cmp l := by
  refine (hp.trans (qsort_perm cmp l).symm).eq_of_pairwise ?_ hs (pairwise_qsort cmp l)
  intro a b ha hb h1 h2
  refine hd a (hp.mem_iff.mp ha) b ((qsort_perm cmp l).mem_iff.mp hb) ?_
  rw [@Std.OrientedCmp.eq_swap α cmp _ b a] at h2
  cases hc : cmp a b <;> simp [hc] at h1 h2 ⊢

end Order

/-! ### Bisection -/

/-- The bisection loop: halve `[low, high)`, moving right past every element
the key lies after. -/
def bisect (after : α → Bool) (l : List α) : ℕ → ℕ → ℕ → ℕ
  | 0, low, _ => low
  | fuel + 1, low, high =>
    if low < high then
      let mid := low + (high - low) / 2
      match l[mid]? with
      | some x => if after x then bisect after l fuel (mid + 1) high else bisect after l fuel low mid
      | none => low
    else low

/-- Bisection sees an element only through its test. -/
theorem bisect_map {β : Type} {g : α → β} {after : α → Bool} {after' : β → Bool}
    (h : ∀ x, after' (g x) = after x) (l : List α) (fuel low high : ℕ) :
    bisect after' (l.map g) fuel low high = bisect after l fuel low high := by
  induction fuel generalizing low high with
  | zero => rfl
  | succ fuel ih =>
    simp only [bisect, List.getElem?_map]
    cases l[low + (high - low) / 2]? with
    | none => rfl
    | some x => simp only [Option.map_some, h, ih]

/-- The key never lies after an element without lying after all before it. -/
def Monotone (after : α → Bool) (l : List α) : Prop :=
  l.Pairwise fun x y => after y = true → after x = true

theorem takeWhile_length_le_iff {after : α → Bool} {l : List α} (hm : Monotone after l) {i : ℕ}
    {x : α} (hx : l[i]? = some x) : (l.takeWhile after).length ≤ i ↔ after x = false := by
  induction l generalizing i with
  | nil => simp at hx
  | cons a l ih =>
    have hpair := List.pairwise_cons.mp hm
    cases i with
    | zero =>
      have hax : a = x := by simpa using hx
      subst hax
      cases ha : after a <;> simp [ha]
    | succ i =>
      have hx' : l[i]? = some x := by simpa using hx
      cases ha : after a with
      | true => simpa [ha] using ih hpair.2 hx'
      | false =>
        have hxl : x ∈ l := List.mem_of_getElem? hx'
        have hxf : after x = false := by
          cases hxa : after x with
          | false => rfl
          | true =>
            have hat := hpair.1 x hxl hxa
            rw [ha] at hat
            exact hat.symm
        simp [ha, hxf]

theorem bisect_between {after : α → Bool} {l : List α} (hm : Monotone after l) :
    ∀ fuel low high, high - low ≤ fuel → low ≤ (l.takeWhile after).length →
      (l.takeWhile after).length ≤ high → high ≤ l.length →
      bisect after l fuel low high = (l.takeWhile after).length := by
  intro fuel
  induction fuel with
  | zero =>
    intro low high hf hl hh _
    simp only [bisect]
    omega
  | succ fuel ih =>
    intro low high hf hl hh hn
    by_cases hlt : low < high
    · have hmid : low + (high - low) / 2 < l.length := by omega
      have hx : l[low + (high - low) / 2]? = some l[low + (high - low) / 2] :=
        List.getElem?_eq_getElem hmid
      have hiff := takeWhile_length_le_iff hm hx
      simp only [bisect, hlt, if_true, hx]
      cases ha : after l[low + (high - low) / 2] with
      | true =>
        have hgt : ¬ (l.takeWhile after).length ≤ low + (high - low) / 2 := by
          rw [hiff, ha]
          simp
        simpa using ih _ _ (by omega) (by omega) hh hn
      | false =>
        have hle := hiff.mpr ha
        simpa using ih _ _ (by omega) hl hle (by omega)
    · simp only [bisect, hlt, if_false]
      omega

/-- Started on the whole array, the loop stops at the first element the key
does not lie after. -/
theorem bisect_eq {after : α → Bool} {l : List α} (hm : Monotone after l) :
    bisect after l l.length 0 l.length = (l.takeWhile after).length :=
  bisect_between hm _ _ _ (by omega) (by omega) (List.takeWhile_prefix after).length_le le_rfl

theorem drop_bisect {after : α → Bool} {l : List α} (hm : Monotone after l) :
    l.drop (bisect after l l.length 0 l.length) = l.dropWhile after := by
  rw [bisect_eq hm]
  have hdrop : ((l.takeWhile after) ++ l.dropWhile after).drop (l.takeWhile after).length =
      l.dropWhile after := List.drop_left
  rwa [List.takeWhile_append_dropWhile] at hdrop

/-- In an array ordered against a key, the elements equal to the key are the
run that starts where the bisection stops. -/
theorem takeWhile_dropWhile_eq_filter (c : α → Ordering) (l : List α)
    (hp : l.Pairwise fun x y => (c y = .gt → c x = .gt) ∧ (c x = .lt → c y = .lt)) :
    (l.dropWhile fun x => c x == .gt).takeWhile (fun x => c x == .eq) =
      l.filter fun x => c x == .eq := by
  induction l with
  | nil => rfl
  | cons a l ih =>
    have hpair := List.pairwise_cons.mp hp
    have ih := ih hpair.2
    have hgt : c a ≠ .gt → l.dropWhile (fun x => c x == .gt) = l := by
      intro ha
      cases l with
      | nil => rfl
      | cons b l =>
        have hb : c b ≠ .gt := fun hb => ha ((hpair.1 b (by simp)).1 hb)
        simp [hb]
    cases ha : c a with
    | gt => simpa [ha] using ih
    | eq =>
      rw [hgt (by simp [ha])] at ih
      simpa [ha] using ih
    | lt =>
      have hnone : l.filter (fun x => c x == .eq) = [] := by
        rw [List.filter_eq_nil_iff]
        intro x hx
        have := (hpair.1 x hx).2 ha
        simp [this]
      simp [ha, hnone]

/-! ### Search -/

/-- The loop that stops at an element equal to the key; `c` compares the key
with an element. -/
def search (c : α → Ordering) (l : List α) : ℕ → ℕ → ℕ → Option α
  | 0, _, _ => none
  | fuel + 1, low, high =>
    if low < high then
      let mid := low + (high - low) / 2
      match l[mid]? with
      | some x =>
        match c x with
        | .eq => some x
        | .lt => search c l fuel low mid
        | .gt => search c l fuel (mid + 1) high
      | none => none
    else none

theorem search_sound {c : α → Ordering} {l : List α} {fuel low high : ℕ} {x : α}
    (h : search c l fuel low high = some x) : x ∈ l ∧ c x = .eq := by
  induction fuel generalizing low high with
  | zero => cases h
  | succ fuel ih =>
    simp only [search] at h
    split at h
    · split at h
      · rename_i y hy
        split at h
        · rename_i hc
          cases h
          exact ⟨List.mem_of_getElem? hy, hc⟩
        · exact ih h
        · exact ih h
      · cases h
    · cases h

/-- In an array ordered against the key the search misses no element. -/
theorem search_complete {c : α → Ordering} {l : List α}
    (hp : l.Pairwise fun x y => (c y = .gt → c x = .gt) ∧ (c x = .lt → c y = .lt))
    {fuel low high i : ℕ} (hf : high - low ≤ fuel) (hlo : low ≤ i) (hhi : i < high)
    (hlen : high ≤ l.length) {x : α} (hx : l[i]? = some x) (hc : c x = .eq) :
    (search c l fuel low high).isSome := by
  have horder : ∀ {a b : ℕ} {y z : α}, a < b → l[a]? = some y → l[b]? = some z →
      (c z = .gt → c y = .gt) ∧ (c y = .lt → c z = .lt) := by
    intro a b y z hab hy hz
    obtain ⟨ha, rfl⟩ := List.getElem?_eq_some_iff.mp hy
    obtain ⟨hb, rfl⟩ := List.getElem?_eq_some_iff.mp hz
    exact List.pairwise_iff_getElem.mp hp a b ha hb hab
  induction fuel generalizing low high with
  | zero => omega
  | succ fuel ih =>
    have hlt : low < high := by omega
    obtain ⟨mid, hmid⟩ : ∃ mid, mid = low + (high - low) / 2 := ⟨_, rfl⟩
    obtain ⟨y, hy⟩ : ∃ y, l[mid]? = some y := ⟨_, List.getElem?_eq_getElem (by omega)⟩
    have hsame : mid = i → c y = .eq := by
      intro hmi
      rw [hmi, hx] at hy
      rw [← Option.some.inj hy, hc]
    simp only [search, if_pos hlt, ← hmid, hy]
    cases hcy : c y with
    | eq => rfl
    | lt =>
      refine ih (by omega) hlo ?_ (by omega)
      by_contra hge
      rcases Nat.lt_or_eq_of_le (Nat.not_lt.mp hge) with hab | hab
      · have hcx := (horder hab hy hx).2 hcy
        rw [hc] at hcx
        cases hcx
      · rw [hsame hab] at hcy
        cases hcy
    | gt =>
      refine ih (by omega) ?_ hhi hlen
      by_contra hge
      rcases Nat.lt_or_eq_of_le (Nat.lt_succ_iff.mp (Nat.not_le.mp hge)) with hab | hab
      · have hcx := (horder hab hx hy).1 hcy
        rw [hc] at hcx
        cases hcx
      · rw [hsame hab.symm] at hcy
        cases hcy

/-- A sorted array is ordered against every key. -/
theorem pairwise_against {β : Type} {cmp : β → β → Ordering} [Std.TransCmp cmp] {f : α → β}
    {l : List α} (hs : l.Pairwise fun x y => (cmp (f x) (f y)).isLE = true) (key : β) :
    l.Pairwise fun x y => (cmp key (f y) = .gt → cmp key (f x) = .gt) ∧
      (cmp key (f x) = .lt → cmp key (f y) = .lt) := by
  refine hs.imp ?_
  intro x y hxy
  constructor
  · intro hgt
    exact Std.TransCmp.gt_of_gt_of_isGE hgt (by
      rw [@Std.OrientedCmp.eq_swap β cmp _ (f y) (f x)]
      cases h : cmp (f x) (f y) <;> rw [h] at hxy <;> first | rfl | cases hxy)
  · intro hlt
    exact Std.TransCmp.lt_of_lt_of_isLE hlt hxy

theorem search_isSome_iff {c : α → Ordering} {l : List α}
    (hp : l.Pairwise fun x y => (c y = .gt → c x = .gt) ∧ (c x = .lt → c y = .lt)) :
    (search c l l.length 0 l.length).isSome ↔ ∃ x ∈ l, c x = .eq := by
  constructor
  · intro h
    obtain ⟨x, hx⟩ := Option.isSome_iff_exists.mp h
    exact ⟨x, search_sound hx⟩
  · intro h
    obtain ⟨x, hx, hc⟩ := h
    obtain ⟨i, hi⟩ := List.mem_iff_getElem?.mp hx
    obtain ⟨hlt, -⟩ := List.getElem?_eq_some_iff.mp hi
    exact search_complete hp (by omega) (Nat.zero_le _) hlt (le_refl _) hi hc

end JaroFilter.Lib
