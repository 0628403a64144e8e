import JaroFilter.Products.Restore

/-!
# The fingerprint of an inventory (`cache.c:56-74`)

`jf_dependencies_fingerprint` hashes the sorted dependency records. The
compiler hashes the same bytes while it builds a cache, and the validator
hashes the `D` records it reads back.
-/

namespace JaroFilter

open Lib

/-- The loop of `jf_dependencies_fingerprint` over the sorted list. -/
def fingerprintLoop : Option Dependency → Bytes → List Dependency → Except ℕ Bytes
  | _, b, [] => .ok b
  | previous, b, d :: ds =>
    if d.role = [] ∨ (∃ x ∈ previous, depCompare x d = .eq) then .error 4
    else match bytesAdd cacheMax b (encodeRecord (dependencyRecord d)) with
      | none => .error 3
      | some b => fingerprintLoop (some d) b ds

def dependenciesFingerprint (deps : List Dependency) : Except ℕ Bytes :=
  if dependencyMax < deps.length then .error 3
  else (fingerprintLoop none inventoryTag (qsort depCompare deps)).map digest

/-- What the validator's running hash comes to (`cache.c:316`), in hexadecimal. -/
def recomputedFingerprint (data : Bytes) : Option Bytes :=
  (validateLoop none none (recordCount data) (recordCount data) 0 startWalk (data.drop 92)).map
    fun x => sha256Hex x.1.hash

/-- The hashed bytes of a list. -/
def inventoryBytes (deps : List Dependency) : Bytes :=
  inventoryTag ++ encodeRecords ((qsort depCompare deps).map dependencyRecord)

/-- Nonempty distinct keys, within the limits. -/
structure Keyed (deps : List Dependency) : Prop where
  role : ∀ d ∈ deps, d.role ≠ []
  distinct : deps.Pairwise fun x y => (x.role, x.path) ≠ (y.role, y.path)
  count : deps.length ≤ dependencyMax
  size : (inventoryBytes deps).length ≤ cacheMax

/-- What an inventory says of one input. -/
def Dependency.entry (d : Dependency) : Bytes × Bytes × Option Bytes × Bytes :=
  (d.role, d.path, if d.present then some d.digest else none, d.auxiliary)

/-! ### Order -/

theorem qsort_of_perm {xs ys : List Dependency} (hp : xs.Perm ys)
    (hd : ys.Pairwise fun x y => (x.role, x.path) ≠ (y.role, y.path)) :
    qsort depCompare xs = qsort depCompare ys := by
  apply eq_qsort_of_perm depCompare ((qsort_perm depCompare xs).trans hp) (pairwise_qsort depCompare xs)
  intro a ha b hb hab
  by_contra hne
  have hsymm : Std.Symm fun x y : Dependency => (x.role, x.path) ≠ (y.role, y.path) :=
    ⟨fun x y h => h.symm⟩
  exact (hd.forall ha hb hne) (depCompare_eq_iff.mp hab)

theorem Keyed.perm {xs ys : List Dependency} (h : Keyed ys) (hp : xs.Perm ys) : Keyed xs := by
  have hdistinct : xs.Pairwise fun x y => (x.role, x.path) ≠ (y.role, y.path) :=
    (hp.pairwise_iff fun hxy => hxy.symm).mpr h.distinct
  refine ⟨?_, hdistinct, ?_, ?_⟩
  · intro d hd
    exact h.role d (hp.mem_iff.mp hd)
  · rw [hp.length_eq]
    exact h.count
  · rw [inventoryBytes, qsort_of_perm hp h.distinct]
    exact h.size

/-! ### The value -/

theorem fingerprintLoop_ok {previous : Option Dependency} {b b' : Bytes} {ds : List Dependency}
    (h : inventoryLoop previous b ds = .ok b') : fingerprintLoop previous b ds = .ok b' := by
  induction ds generalizing previous b with
  | nil =>
    cases h
    rfl
  | cons d ds ih =>
    simp only [inventoryLoop] at h
    split at h
    · cases h
    · rename_i hkey
      obtain ⟨b1, hb, h⟩ := bind_eq_ok_iff.mp h
      simp only [fingerprintLoop, if_neg hkey, orMemory_ok hb]
      exact ih h

theorem Keyed.fingerprint {deps : List Dependency} (h : Keyed deps) :
    dependenciesFingerprint deps = .ok (digest (inventoryBytes deps)) := by
  have hsize := h.size
  rw [inventoryBytes, List.length_append] at hsize
  have hcount : ¬ dependencyMax < deps.length := Nat.not_lt.mpr h.count
  have hloop := fingerprintLoop_ok (inventoryLoop_eq_ok none inventoryTag
    (fun d hd => h.role d (mem_qsort.mp hd)) (sorted_of_distinct h.distinct) (by simp) hsize)
  rw [dependenciesFingerprint, if_neg hcount, hloop]
  rfl

/-! ### The value in a cache -/

theorem recomputed_of_valid {data : Bytes} (h : cacheValidate data none none none = .ok ()) :
    recomputedFingerprint data = some (digestHex ((data.drop 24).take 32)) := by
  simp only [cacheValidate] at h
  split at h
  · cases h
  · split at h
    · cases h
    · split at h
      · cases h
      · rename_i w rest hloop
        split at h
        · rename_i hdone
          simp only [walkComplete, Bool.and_eq_true, beq_iff_eq] at hdone
          rw [recomputedFingerprint, hloop, Option.map_some, hdone.2]
        · cases h

theorem built_fingerprint {p : Policy} {profile : Profile} {deps : List Dependency} {out : Products}
    (h : productsBuild p profile deps = .ok out) :
    (out.cache.drop 24).take 32 = digest (inventoryBytes deps) ∧
      recomputedFingerprint out.cache = some (digestHex (digest (inventoryBytes deps))) := by
  obtain ⟨names, inventory, hparts⟩ := productsBuild_parts h
  have hlisted := inventoryLoop_ok hparts.listed
  have hstored : (out.cache.drop 24).take 32 = digest (inventoryBytes deps) := by
    rw [hparts.cache, (cacheParts_cacheBytes (digest_length inventory) _).fingerprint, hlisted]
    rfl
  refine ⟨hstored, ?_⟩
  rw [recomputed_of_valid (cacheValidate_none hparts.valid), hstored]

/-! ### Injectivity -/

theorem cleared_key (d : Dependency) :
    d.cleared.role = d.role ∧ d.cleared.path = d.path := by
  unfold Dependency.cleared
  split
  · exact ⟨rfl, rfl⟩
  · exact ⟨rfl, rfl⟩

theorem cleared_record (d : Dependency) : dependencyRecord d.cleared = dependencyRecord d := by
  unfold Dependency.cleared
  split
  · rfl
  · rename_i h
    simp [dependencyRecord, h]

theorem cleared_eq_iff {d e : Dependency} : d.cleared = e.cleared ↔ d.entry = e.entry := by
  obtain ⟨r, p, b, g, a, hr, hp, hg⟩ := d
  obtain ⟨r', p', b', g', a', hr', hp', hg'⟩ := e
  cases b <;> cases b' <;> simp [Dependency.cleared, Dependency.entry]

theorem entry_of_record {d e : Dependency} (h : dependencyRecord d = dependencyRecord e) :
    d.entry = e.entry := by
  have hflag : cstr "0" ≠ cstr "1" := by decide
  obtain ⟨r, p, b, g, a, hr, hp, hg⟩ := d
  obtain ⟨r', p', b', g', a', hr', hp', hg'⟩ := e
  cases b <;> cases b' <;>
    simp_all [dependencyRecord, Dependency.entry, hflag.symm]

/-- Sorting looks at the keys only. -/
theorem qsort_cleared (deps : List Dependency)
    (hd : deps.Pairwise fun x y => (x.role, x.path) ≠ (y.role, y.path)) :
    (qsort depCompare deps).map Dependency.cleared =
      qsort depCompare (deps.map Dependency.cleared) := by
  have hkey : ∀ x y : Dependency, depCompare x.cleared y.cleared = depCompare x y := by
    intro x y
    simp only [depCompare, cleared_key]
  apply eq_qsort_of_perm depCompare ((qsort_perm depCompare deps).map _)
  · rw [List.pairwise_map]
    exact (pairwise_qsort depCompare deps).imp fun hxy => by rw [hkey]; exact hxy
  · intro a ha b hb hab
    obtain ⟨x, hx, rfl⟩ := List.mem_map.mp ha
    obtain ⟨y, hy, rfl⟩ := List.mem_map.mp hb
    rw [hkey] at hab
    by_contra hne
    have hsymm : Std.Symm fun x y : Dependency => (x.role, x.path) ≠ (y.role, y.path) :=
      ⟨fun x y h => h.symm⟩
    exact hd.forall hx hy (fun h => hne (by rw [h])) (depCompare_eq_iff.mp hab)

theorem inventoryBytes_cleared (deps : List Dependency)
    (hd : deps.Pairwise fun x y => (x.role, x.path) ≠ (y.role, y.path)) :
    inventoryBytes deps = inventoryTag ++
      encodeRecords ((qsort depCompare (deps.map Dependency.cleared)).map dependencyRecord) := by
  have hmap : (qsort depCompare (deps.map Dependency.cleared)).map dependencyRecord =
      (qsort depCompare deps).map dependencyRecord := by
    rw [← qsort_cleared deps hd, List.map_map]
    exact List.map_congr_left fun d _ => cleared_record d
  rw [hmap, inventoryBytes]

theorem nodup_cleared {deps : List Dependency}
    (hd : deps.Pairwise fun x y => (x.role, x.path) ≠ (y.role, y.path)) :
    (deps.map Dependency.cleared).Pairwise fun x y => (x.role, x.path) ≠ (y.role, y.path) := by
  rw [List.pairwise_map]
  refine hd.imp ?_
  intro x y hxy
  simpa only [cleared_key] using hxy

theorem Keyed.fits {deps : List Dependency} (h : Keyed deps) :
    ∀ r ∈ (qsort depCompare deps).map dependencyRecord, r.Fits := by
  intro r hr
  have hsize := h.size
  rw [inventoryBytes, List.length_append] at hsize
  apply fits_of_encode hr
  · obtain ⟨d, _, rfl⟩ := List.mem_map.mp hr
    show 5 ≤ 12
    decide
  · omega

theorem entries_of_records {xs ys : List Dependency}
    (h : xs.map dependencyRecord = ys.map dependencyRecord) :
    xs.map Dependency.entry = ys.map Dependency.entry := by
  induction xs generalizing ys with
  | nil =>
    cases ys with
    | nil => rfl
    | cons y ys => cases h
  | cons x xs ih =>
    cases ys with
    | nil => cases h
    | cons y ys =>
      rw [List.map_cons, List.map_cons] at h ⊢
      obtain ⟨h1, h2⟩ := List.cons.inj h
      rw [entry_of_record h1, ih h2]

/-- The hashed bytes of two lists agree exactly when their entries do. -/
theorem inventoryBytes_eq_iff {xs ys : List Dependency} (hx : Keyed xs) (hy : Keyed ys) :
    inventoryBytes xs = inventoryBytes ys ↔
      ∀ e, e ∈ xs.map Dependency.entry ↔ e ∈ ys.map Dependency.entry := by
  constructor
  · intro h
    have hrecords : (qsort depCompare xs).map dependencyRecord =
        (qsort depCompare ys).map dependencyRecord :=
      encodeRecords_injective hx.fits hy.fits (List.append_cancel_left h)
    have hentries := entries_of_records hrecords
    intro e
    rw [← ((qsort_perm depCompare xs).map Dependency.entry).mem_iff, hentries,
      ((qsort_perm depCompare ys).map Dependency.entry).mem_iff]
  · intro h
    have hmem : ∀ {as bs : List Dependency},
        (∀ e, e ∈ as.map Dependency.entry → e ∈ bs.map Dependency.entry) →
        ∀ d, d ∈ as.map Dependency.cleared → d ∈ bs.map Dependency.cleared := by
      intro as bs hsub d hd
      obtain ⟨x, hx, rfl⟩ := List.mem_map.mp hd
      obtain ⟨y, hy, heq⟩ := List.mem_map.mp (hsub _ (List.mem_map_of_mem hx))
      exact List.mem_map.mpr ⟨y, hy, cleared_eq_iff.mpr heq⟩
    have hnodup : ∀ {as : List Dependency}, Keyed as → (as.map Dependency.cleared).Nodup :=
      fun has => (nodup_cleared has.distinct).imp fun hne heq => hne (by rw [heq])
    have hperm : (xs.map Dependency.cleared).Perm (ys.map Dependency.cleared) := by
      apply (List.perm_ext_iff_of_nodup (hnodup hx) (hnodup hy)).mpr
      intro d
      exact ⟨hmem (fun e => (h e).mp) d, hmem (fun e => (h e).mpr) d⟩
    rw [inventoryBytes_cleared xs hx.distinct, inventoryBytes_cleared ys hy.distinct,
      qsort_of_perm hperm (nodup_cleared hy.distinct)]

/-- Order does not matter, the compiler and the validator hash the same bytes,
and under a hash without collisions on them the fingerprint is the inventory. -/
theorem fingerprint_identifies_inventory (xs ys : List Dependency) (hx : Keyed xs) (hy : Keyed ys)
    (hsha : Set.InjOn digest {inventoryBytes xs, inventoryBytes ys}) :
    ∃ fx fy, dependenciesFingerprint xs = .ok fx ∧ dependenciesFingerprint ys = .ok fy ∧
      (∀ zs : List Dependency, zs.Perm xs → dependenciesFingerprint zs = .ok fx) ∧
      (∀ p profile out, productsBuild p profile xs = .ok out →
        (out.cache.drop 24).take 32 = fx ∧ recomputedFingerprint out.cache = some (digestHex fx)) ∧
      (fx = fy ↔ ∀ e, e ∈ xs.map Dependency.entry ↔ e ∈ ys.map Dependency.entry) := by
  refine ⟨_, _, hx.fingerprint, hy.fingerprint, ?_, ?_, ?_⟩
  · intro zs hp
    rw [(hx.perm hp).fingerprint, inventoryBytes, qsort_of_perm hp hx.distinct]
    rfl
  · intro p profile out hbuild
    exact built_fingerprint hbuild
  · rw [← inventoryBytes_eq_iff hx hy]
    constructor
    · intro h
      exact hsha (by simp) (by simp) h
    · intro h
      rw [h]

theorem keyed_sampleDeps : Keyed sampleDeps := by
  have hlen := sampleDeps_length
  have hmax : 5006 ≤ cacheMax ∧ 3 ≤ dependencyMax := by decide
  have htag : inventoryTag.length = 6 := by decide
  refine ⟨fun d hd => (inventory_sampleDeps.ok d hd).role, inventory_sampleDeps.distinct, hmax.2, ?_⟩
  rw [inventoryBytes, List.length_append]
  omega

theorem book_role : 0 ∉ cstr "book" := by decide

theorem book_path : 0 ∉ ([] : Bytes) := by decide

/-- A book that is not there, and one that is there with a zero digest. -/
def absentBook : Dependency where
  role := cstr "book"
  path := []
  present := false
  digest := zeroDigest
  auxiliary := []
  role_nul := book_role
  path_nul := book_path
  digest_length := zeroDigest_length

def presentBook : Dependency := { absentBook with present := true }

theorem keyed_book {d : Dependency} (h : d = absentBook ∨ d = presentBook) : Keyed [d] := by
  have hfacts : ∀ d ∈ [absentBook, presentBook], d.role ≠ [] ∧ (inventoryBytes [d]).length ≤ 100 := by
    decide
  have hmax : 100 ≤ cacheMax ∧ 1 ≤ dependencyMax := by decide
  obtain ⟨hrole, hsize⟩ := hfacts d (by simpa using h)
  exact ⟨by simpa using hrole, List.pairwise_singleton _ _, hmax.2, hsize.trans hmax.1⟩

/-- The hashed strings of the two books have two digests. -/
theorem books_injOn : Set.InjOn digest {inventoryBytes [absentBook], inventoryBytes [presentBook]} := by
  have hne : digest (inventoryBytes [absentBook]) ≠ digest (inventoryBytes [presentBook]) := by
    decide +kernel
  exact Set.injOn_pair.mpr fun h => absurd h hne

theorem fingerprint_identifies_sample :
    (∃ out fx, productsBuild samplePolicy sampleProfile sampleDeps = .ok out ∧
      dependenciesFingerprint sampleDeps.reverse = .ok fx ∧ (out.cache.drop 24).take 32 = fx) ∧
    ∃ fx fy, dependenciesFingerprint [absentBook] = .ok fx ∧
      dependenciesFingerprint [presentBook] = .ok fy ∧ fx ≠ fy := by
  constructor
  · obtain ⟨out, hbuild⟩ := exists_eq_ok productsBuild_sample_isOk
    obtain ⟨fx, _, _, _, hperm, hcache, _⟩ := fingerprint_identifies_inventory sampleDeps sampleDeps
      keyed_sampleDeps keyed_sampleDeps (by simp)
    exact ⟨out, fx, hbuild, hperm _ (List.reverse_perm _), (hcache _ _ _ hbuild).1⟩
  · obtain ⟨fx, fy, hx, hy, -, -, hiff⟩ := fingerprint_identifies_inventory [absentBook] [presentBook]
      (keyed_book (.inl rfl)) (keyed_book (.inr rfl)) books_injOn
    refine ⟨fx, fy, hx, hy, fun heq => ?_⟩
    have hentry := (hiff.mp heq absentBook.entry).mp (List.mem_singleton.mpr rfl)
    rw [List.map_singleton, List.mem_singleton] at hentry
    exact absurd (congrArg (fun e => e.2.2.1) hentry) (by decide)

end JaroFilter
