import JaroFilter.Generation.Commit

/-!
# Generations of a build (`generation.c:177-210,484-515`)

The directory a build fills, why its own validation accepts it, and the
routines that stage it, move it to its place or discard it.
-/

namespace JaroFilter

open Lib

/-! ### The files of a build -/

/-- The generation a build describes. -/
def Products.generation (p : Products) : Generation := ⟨p.id, p.cache, p.zsh, p.sieve⟩

/-- A directory that holds exactly the files of a build. -/
def productDirectory (p : Products) : Directory where
  files
    | .policyBin => savedFile p.cache
    | .filtersZsh => savedFile p.zsh
    | .filtersSieve => savedFile p.sieve
    | .manifestJson => savedFile (manifest p.generation)
  extra := false
  mode := directoryMode

/-- What the directory's validation needs of the products. -/
structure Complete (p : Products) : Prop where
  id : p.id = digestHex ((p.cache.drop 24).take 32)
  id_valid : validId p.id = true
  cache_size : p.cache.length ≤ cacheFileMax
  zsh_size : p.zsh.length ≤ cacheMax
  sieve_size : p.sieve.length ≤ cacheMax
  valid : cacheValidate p.cache (some p.zsh) (some p.sieve) none = .ok ()

theorem emitAdd_size {b s t : Bytes} (h : emitAdd b s = .ok t) : t.length ≤ cacheMax := by
  unfold emitAdd at h
  split at h
  · rename_i hfit
    cases h
    rw [List.length_append]
    omega
  · cases h

theorem emitText_size {p : Profile} {rules : List Rule} {names : List Bytes} {z s : Bytes}
    (h : emitText p rules names = .ok (z, s)) : z.length ≤ cacheMax ∧ s.length ≤ cacheMax := by
  obtain ⟨z', hz, h⟩ := bind_eq_ok_iff.mp h
  obtain ⟨b, hb, h⟩ := bind_eq_ok_iff.mp h
  obtain ⟨⟨rest, b'⟩, hstages, h⟩ := bind_eq_ok_iff.mp h
  match rest, h with
  | [(r, mailbox)], h =>
    simp only at h
    split at h
    · obtain ⟨t, ht, h⟩ := bind_eq_ok_iff.mp h
      cases h
      exact ⟨emitAdd_size hz, emitAdd_size ht⟩
    · cases h
  | [], h => cases h
  | _ :: _ :: _, h => cases h

theorem cacheValidate_any {data : Bytes} {zsh sieve fp : Option Bytes}
    (h : cacheValidate data zsh sieve fp = .ok ()) : cacheValidate data zsh sieve none = .ok () := by
  simp only [cacheValidate] at h ⊢
  split at h
  · cases h
  · rename_i hheader
    have hnone : cacheHeader data none = true := by
      simp only [cacheHeader, Bool.and_eq_true, Bool.not_eq_false] at hheader ⊢
      exact ⟨⟨hheader.1.1, rfl⟩, hheader.2⟩
    rw [hnone, if_neg (by simp)]
    exact h

theorem validId_digestHex {s : Bytes} (h : s.length = 32) : validId (digestHex s) = true := by
  rw [validId, Bool.and_eq_true]
  refine ⟨?_, ?_⟩
  · rw [digestHex_length, h]
    rfl
  · rw [List.all_eq_true]
    exact digestHex_lowerHex s

theorem complete_of_build {policy : Policy} {profile : Profile} {deps : List Dependency}
    {p : Products} (h : productsBuild policy profile deps = .ok p) : Complete p := by
  obtain ⟨names, inventory, parts⟩ := productsBuild_parts h
  have hcache := cacheParts_cacheBytes (digest_length inventory) (littleEndian 4
    (1 + deps.length + policy.rules.length) ++ encodeRecords (cacheRecords profile p.zsh p.sieve
      (qsort depCompare deps) (policy.rules.zip names)))
  have hid : p.id = digestHex (digest inventory) := by
    simp only [productsBuild] at h
    split at h
    · cases h
    · obtain ⟨names', _, h⟩ := bind_eq_ok_iff.mp h
      split at h
      · cases h
      · obtain ⟨⟨zsh, sieve⟩, _, h⟩ := bind_eq_ok_iff.mp h
        obtain ⟨inventory', hinventory, h⟩ := bind_eq_ok_iff.mp h
        obtain ⟨payload, _, h⟩ := bind_eq_ok_iff.mp h
        rw [parts.listed] at hinventory
        cases hinventory
        split at h
        · obtain ⟨_, _, h⟩ := bind_eq_ok_iff.mp h
          cases h
          rfl
        · cases h
  obtain ⟨hzsh, hsieve⟩ := emitText_size parts.emit
  refine ⟨?_, ?_, ?_, hzsh, hsieve, cacheValidate_any parts.valid⟩
  · rw [hid, parts.cache, hcache.fingerprint]
  · rw [hid]
    exact validId_digestHex (digest_length inventory)
  · have hsize := parts.size
    have hlen : cacheHeaderSize = 88 := rfl
    have hmax : cacheFileMax = cacheMax + 88 := rfl
    rw [parts.cache]
    simp only [cacheBytes, List.length_append, littleEndian_length, digest_length] at hsize ⊢
    have h8 : (cstr "JFNCACHE").length = 8 := by decide
    omega

theorem manifest_length {g : Generation} (h : g.id.length = 64) : (manifest g).length ≤ 4096 := by
  have hparts : (cstr "\x7b\"schema\":1,\"generation\":\"").length ≤ 100 ∧
      (cstr "\",\"policy_sha256\":\"").length ≤ 100 ∧ (cstr "\",\"zsh_sha256\":\"").length ≤ 100 ∧
      (cstr "\",\"sieve_sha256\":\"").length ≤ 100 ∧ (cstr "\"\x7d\n").length ≤ 100 := by decide
  obtain ⟨h1, h2, h3, h4, h5⟩ := hparts
  simp only [manifest, List.length_append, digestHex_length, digest_length, h]
  omega

/-- The validation of a staged build succeeds. -/
theorem validateDirectory_complete {p : Products} (host : Host) (h : Complete p) :
    validateDirectory host (productDirectory p) p.id = .ok p.generation := by
  have hmanifest : (manifest p.generation).length ≤ 4096 := manifest_length (validId_length h.id_valid)
  have hpresent : ¬ ((productDirectory p).extra = true ∨
      ∃ f ∈ [Product.policyBin, .filtersZsh, .filtersSieve, .manifestJson],
        (productDirectory p).files f = none) := by
    simp [productDirectory, savedFile]
  rw [validateDirectory, if_neg hpresent]
  rw [Products.generation] at hmanifest ⊢
  simp only [productDirectory, load_savedFile host h.cache_size, load_savedFile host h.zsh_size,
    load_savedFile host h.sieve_size, Products.generation, load_savedFile host hmanifest, bind, Except.bind,
    h.valid, Except.mapError, ← h.id, ne_eq, not_true_eq_false, or_self, if_false]

theorem installed_complete {host : Host} {d : Disk} {p : Products} (h : Complete p)
    (hd : d.generations p.id = some (productDirectory p)) : Installed host d p := by
  refine ⟨h.id_valid, ⟨p.generation, ?_, rfl⟩, h.sieve_size⟩
  rw [openGeneration, hd]
  simp only [productDirectory, if_true]
  exact validateDirectory_complete host h

end JaroFilter
