import JaroFilter.Policy.Classify

/-!
# Export profiles (`profile.c`, `regex_subset.c`)

The profile reader, the mapping from a rule to its mailbox name, and the
qualified subset of regular expressions.
-/

namespace JaroFilter

open Lib

/-! ### Limits and errors (`products.h:7-13`, `product_util.c:74`) -/

def cacheMax : ℕ := 128 * 1024 * 1024
def cacheHeaderSize : ℕ := 88
def cacheFileMax : ℕ := cacheMax + cacheHeaderSize
def dependencyMax : ℕ := 100000
def cacheRecordMax : ℕ := 1 + dependencyMax + ruleRecordMax

/-- `jf_product_error`. -/
def productError (code : Code) (line : ℕ) (detail : Bytes) : Failure :=
  ⟨if code = .eMemory then 3 else 4, ⟨code, none, line, detail.take 159⟩⟩

/-! ### Regular expressions -/

def regexQualification : Bytes :=
  cstr "3e76202c44027d97666ed1ed0d05530e13c7ae529175a9de4c137ff819aa2650"

/-- The installed qualification catalogue. -/
def regexCatalogue : Bytes := List.flatten [
  cstr "\x7b\n",
  cstr "  \"argument\": \"After minimal mailbox quoting produces identical address bytes, ",
  cstr "concatenation without repetition, alternatives, captures or locale classes accepts ",
  cstr "the same fixed-length byte sequences at the same start offsets. Outer anchors ",
  cstr "restrict offsets identically. Patterns remain unchanged. This is not general ERE ",
  cstr "equivalence.\",\n",
  cstr "  \"compiler_id\": \"jaromail-filter-compiler-v2\",\n",
  cstr "  \"fixture_sha256\": ",
  cstr "\"01a79e103a7cfbb5a022c9cc27643a8aa5dfee1d4f871976b9edbc70e4b8f79f\",\n",
  cstr "  \"grammar\": \"ascii-concatenation-v1: nonempty printable ASCII concatenation; ",
  cstr "optional leading ^ and trailing $; dot matches one byte; [.] and escaped . \\\\ + ? * ",
  cstr "( ) \x7b \x7d | ^ $ [ are literal; all other metacharacters, classes, groups, ",
  cstr "repetitions, backreferences and escapes rejected\",\n",
  cstr "  \"independent_cases\": 141,\n",
  cstr "  \"native\": \"REG_EXTENDED|REG_ICASE; LC_ALL=C; match existence only\",\n",
  cstr "  \"normalization\": \"mailbox-minimal-quoting-v2\",\n",
  cstr "  \"normalization_fixture_sha256\": ",
  cstr "\"c62cf95ec0c4a97d55f71301e26903f6b0644710403608391e10849b651204e1\",\n",
  cstr "  \"oracle_required\": \"Actual generated output sievec compilation and sieve-test ",
  cstr "simulation plus shared native classifier against every authored winner; unsupported ",
  cstr "grammar fails publication.\",\n",
  cstr "  \"profile\": \"pigeonhole-2.4.5-posix-ere-v1\",\n",
  cstr "  \"required_build_configuration\": [\n",
  cstr "    \"--with-pcre2\",\n",
  cstr "    \"--enable-experimental-mail-utf8\"\n",
  cstr "  ],\n",
  cstr "  \"schema\": 2,\n",
  cstr "  \"sieve\": \"Pigeonhole 2.4.5 address :all :regex comparator i;ascii-casemap; ",
  cstr "DREGEX_ICASE|DREGEX_ASCII_ONLY; PCRE2_NEVER_UTF; unsigned byte conversion\",\n",
  cstr "  \"upstream\": \"Signed Dovecot/Pigeonhole 2.4.5 releases pinned by ",
  cstr "vendor/sources.json; optional PCRE2-32 development dependency, never application ",
  cstr "runtime\"\n",
  cstr "\x7d\n"]

/-- `.\\+?*(){}|^$[`: what a backslash may precede. -/
def escapable : Bytes := [46, 92, 43, 63, 42, 40, 41, 123, 125, 124, 94, 36, 91]

/-- `^$+?*(){}|[]`: what may not stand alone. -/
def metacharacters : Bytes := [94, 36, 43, 63, 42, 40, 41, 123, 125, 124, 91, 93]

/-- The loop of `jf_regex_supported`; `fuel` bounds the number of turns. -/
def regexLoop : ℕ → Bytes → Bool
  | 0, _ => true
  | _, [] => true
  | fuel + 1, c :: s =>
    if c < 32 ∨ 126 < c then false
    else if c = 36 ∧ s = [] then true
    else if c = 92 then
      match s with
      | [] => false
      | e :: s => if escapable.contains e then regexLoop fuel s else false
    else if c = 91 ∧ cstr ".]" <+: s then regexLoop fuel (s.drop 2)
    else if metacharacters.contains c then false
    else regexLoop fuel s

/-- `jf_regex_supported` (`regex_subset.c:11`). -/
def regexSupported (pattern : Bytes) : Bool :=
  let p := if pattern.head? = some 94 then pattern.tail else pattern
  if p = [] ∨ p = [36] then false else regexLoop p.length p

/-! ### Profiles -/

/-- The two supported profiles. -/
inductive ProfileId where
  | coreV1 | pigeonhole
  deriving DecidableEq, Repr

def ProfileId.text : ProfileId → Bytes
  | .coreV1 => cstr "core-v1"
  | .pigeonhole => cstr "pigeonhole-2.4.5-posix-ere-v1"

/-- `struct jf_mapping`. -/
structure Mapping where
  logical : Bytes
  mailbox : Bytes
  deriving DecidableEq, Repr

/-- `struct jf_profile`. -/
structure Profile where
  id : ProfileId
  namespacePrefix : Bytes
  separator : Bytes
  create : Bool
  fileinto : Bool
  mailbox : Bool
  regex : Bool
  mappings : List Mapping
  deriving DecidableEq, Repr

/-- `text` (`profile.c:15`). -/
def profileText (s : Bytes) (empty : Bool) : Bool :=
  (empty || s != []) && s.all fun c => !isControl c

/-- `logical` (`profile.c:23`). -/
def profileLogical (s : Bytes) : Bool :=
  profileText s false && s.head? != some 47 && componentsOk [] s

/-- The records that may stand once (`profile.c:67-72`). -/
inductive Setting where
  | version | profile | createMailboxes | namespacePrefix | namespaceSeparator | regexQualification
  deriving DecidableEq, Repr

def settingOf (t : Bytes) : Option Setting :=
  if t = cstr "version" then some .version
  else if t = cstr "profile" then some .profile
  else if t = cstr "create-mailboxes" then some .createMailboxes
  else if t = cstr "namespace-prefix" then some .namespacePrefix
  else if t = cstr "namespace-separator" then some .namespaceSeparator
  else if t = cstr "regex-qualification" then some .regexQualification
  else none

/-- The reader's state: the profile so far and the settings seen. -/
structure ProfileState where
  profile : Profile
  seen : List Setting
  deriving DecidableEq, Repr

def invalidRecord (line : ℕ) : Failure :=
  productError .eProfile line (cstr "unknown, duplicate or malformed profile record")

/-- One setting with its value (`profile.c:73-98`). -/
def applySetting (p : Profile) (s : Setting) (value : Bytes) (line : ℕ) : Except Failure Profile :=
  match s with
  | .version => if value = cstr "1" then .ok p else .error (invalidRecord line)
  | .profile =>
    if value = ProfileId.coreV1.text then .ok { p with id := .coreV1 }
    else if value = ProfileId.pigeonhole.text then .ok { p with id := .pigeonhole }
    else .error (invalidRecord line)
  | .createMailboxes =>
    if value = cstr "yes" then .ok { p with create := true }
    else if value = cstr "no" then .ok { p with create := false }
    else .error (invalidRecord line)
  | .namespacePrefix =>
    if profileText value true then .ok { p with namespacePrefix := value }
    else .error (invalidRecord line)
  | .namespaceSeparator =>
    if profileText value true then .ok { p with separator := value }
    else .error (invalidRecord line)
  | .regexQualification =>
    if value = JaroFilter.regexQualification then .ok p
    else .error (productError .eRegexQualification line
      (cstr "digest does not match this compiler's installed qualification catalogue"))

/-- A `capability` record (`profile.c:99-107`). -/
def applyCapability (p : Profile) (value : Bytes) (line : ℕ) : Except Failure Profile :=
  if value = cstr "fileinto" then
    if p.fileinto then .error (invalidRecord line) else .ok { p with fileinto := true }
  else if value = cstr "mailbox" then
    if p.mailbox then .error (invalidRecord line) else .ok { p with mailbox := true }
  else if value = cstr "regex" then
    if p.regex then .error (invalidRecord line) else .ok { p with regex := true }
  else .error (productError .eCapability line value)

/-- A `mailbox` record (`profile.c:108-116`): a new logical name. -/
def applyMapping (p : Profile) (logical mailbox : Bytes) (line : ℕ) : Except Failure Profile :=
  if profileLogical logical = false ∨ profileText mailbox false = false ∨
      p.mappings.length = ruleMax ∨ p.mappings.any (fun m => m.logical == logical) then
    .error (invalidRecord line)
  else .ok { p with mappings := p.mappings ++ [⟨logical, mailbox⟩] }

/-- One nonempty record. -/
def profileRecord (st : ProfileState) (tokens : List Bytes) (line : ℕ) :
    Except Failure ProfileState :=
  let head := tokens.getD 0 []
  match settingOf head with
  | some s =>
    if tokens.length ≠ 2 ∨ s ∈ st.seen then .error (invalidRecord line)
    else (applySetting st.profile s (tokens.getD 1 []) line).map fun p => ⟨p, s :: st.seen⟩
  | none =>
    if head = cstr "capability" then
      if tokens.length ≠ 2 then .error (invalidRecord line)
      else (applyCapability st.profile (tokens.getD 1 []) line).map fun p => ⟨p, st.seen⟩
    else if head = cstr "mailbox" then
      if tokens.length ≠ 3 then .error (invalidRecord line)
      else (applyMapping st.profile (tokens.getD 1 []) (tokens.getD 2 []) line).map fun p =>
        ⟨p, st.seen⟩
    else .error (invalidRecord line)

def profileLoop (line : ℕ) : List Bytes → ProfileState → Except Failure ProfileState
  | [], st => .ok st
  | l :: ls, st => do
    let tokens ← policyTokens (chopCr l) (line + 1)
    if tokens = [] then profileLoop (line + 1) ls st
    else do
      let st ← profileRecord st tokens (line + 1)
      profileLoop (line + 1) ls st

/-- The built-in profile of an empty file, or the defaults a file overrides (`profile.c:48-53`). -/
def defaultProfile (empty : Bool) : Profile where
  id := if empty then .pigeonhole else .coreV1
  namespacePrefix := []
  separator := cstr "/"
  create := true
  fileinto := empty
  mailbox := empty
  regex := empty
  mappings := []

/-- The checks after the last record (`profile.c:119-126`). -/
def finishProfile (empty : Bool) (st : ProfileState) : Except Failure Profile :=
  let p := st.profile
  let qualified := Setting.regexQualification ∈ st.seen
  if !empty ∧ ¬ (Setting.version ∈ st.seen ∧ Setting.profile ∈ st.seen) then
    .error (productError .eProfile 0 (cstr "version 1 and explicit supported profile required"))
  else if !p.fileinto ∨ (p.create ∧ !p.mailbox) then
    .error (productError .eCapability 0
      (cstr "fileinto required; create-mailboxes yes also requires mailbox"))
  else if (p.id = .coreV1 ∧ (p.regex ∨ qualified)) ∨
      (p.id ≠ .coreV1 ∧ (!p.regex ∨ (!empty ∧ ¬ qualified))) then
    .error (productError .eRegexQualification 0 
      (cstr "optional regex profile requires regex capability and installed qualification digest; core-v1 admits neither"))
  else .ok p

/-- `jf_profile_parse` (`profile.c:35`). -/
def profileParse (data : Bytes) : Except Failure Profile :=
  if inputMax < data.length then
    .error (productError .eInputLimit 0 (cstr "profile exceeds input limit"))
  else do
    let st ← profileLoop 0 (lines data) ⟨defaultProfile (data == []), []⟩
    finishProfile (data == []) st

/-! ### Mailbox names -/

/-- The mailbox name of a logical destination, without the size limit. -/
def mailboxName (p : Profile) (spam : Bool) (logical : Bytes) : Bytes :=
  match p.mappings.find? fun m => m.logical == logical with
  | some m => m.mailbox
  | none =>
    if logical = cstr "known" then cstr "INBOX"
    else if spam then cstr "Spam"
    else p.namespacePrefix ++ logical.flatMap fun c => if c = 47 then p.separator else [c]

/-- The composed name needs its terminator inside the buffer limit; a mapped
or builtin name is copied as it is. -/
def composes (p : Profile) (spam : Bool) (logical : Bytes) : Bool :=
  (p.mappings.find? fun m => m.logical == logical).isNone && logical != cstr "known" && !spam

/-- `jf_profile_mailbox` (`profile.c:130`); `none` is a buffer past its limit. -/
def profileMailbox (p : Profile) (r : Rule) : Option Bytes :=
  let spam := r.kind == .spamIs
  let name := mailboxName p spam r.logical
  if composes p spam r.logical ∧ cacheMax < name.length + 1 then none else some name

/-- The mailbox of every rule, in order (`cache.c:103-106`). -/
def mailboxNames (p : Profile) : List Rule → Option (List Bytes)
  | [] => some []
  | r :: rs => do
    let name ← profileMailbox p r
    let names ← mailboxNames p rs
    return name :: names

/-! ### What a profile is -/

/-- Text without control bytes. -/
structure PlainText (s : Bytes) : Prop where
  utf8 : validUtf8 s = true
  plain : ∀ c ∈ s, isControl c = false

/-- What holds of every profile the reader builds, record by record. -/
structure ProfileOk (p : Profile) : Prop where
  namespacePrefix : PlainText p.namespacePrefix
  separator : PlainText p.separator
  mailboxes : ∀ m ∈ p.mappings, PlainText m.mailbox ∧ m.mailbox ≠ []
  logicals : ∀ m ∈ p.mappings, profileLogical m.logical = true
  distinct : (p.mappings.map Mapping.logical).Nodup

theorem profileText_iff {s : Bytes} {empty : Bool} :
    profileText s empty = true ↔ (empty = true ∨ s ≠ []) ∧ ∀ c ∈ s, isControl c = false := by
  simp only [profileText, Bool.and_eq_true, Bool.or_eq_true, bne_iff_ne, List.all_eq_true,
    Bool.not_eq_true']

theorem applySetting_ok {p q : Profile} {s : Setting} {value : Bytes} {line : ℕ}
    (h : applySetting p s value line = .ok q) (hp : ProfileOk p) (hv : validUtf8 value = true) :
    ProfileOk q := by
  cases s <;> simp only [applySetting] at h
  case version => split at h <;> cases h; exact hp
  case regexQualification => split at h <;> cases h; exact hp
  case profile =>
    split at h
    · cases h
      exact ⟨hp.1, hp.2, hp.3, hp.4, hp.5⟩
    · split at h <;> cases h
      exact ⟨hp.1, hp.2, hp.3, hp.4, hp.5⟩
  case createMailboxes =>
    split at h
    · cases h
      exact ⟨hp.1, hp.2, hp.3, hp.4, hp.5⟩
    · split at h <;> cases h
      exact ⟨hp.1, hp.2, hp.3, hp.4, hp.5⟩
  case namespacePrefix =>
    split at h <;> cases h
    rename_i htext
    exact ⟨⟨hv, (profileText_iff.mp htext).2⟩, hp.2, hp.3, hp.4, hp.5⟩
  case namespaceSeparator =>
    split at h <;> cases h
    rename_i htext
    exact ⟨hp.1, ⟨hv, (profileText_iff.mp htext).2⟩, hp.3, hp.4, hp.5⟩

theorem applyCapability_ok {p q : Profile} {value : Bytes} {line : ℕ}
    (h : applyCapability p value line = .ok q) (hp : ProfileOk p) : ProfileOk q := by
  simp only [applyCapability] at h
  split at h
  · split at h <;> cases h
    exact ⟨hp.1, hp.2, hp.3, hp.4, hp.5⟩
  · split at h
    · split at h <;> cases h
      exact ⟨hp.1, hp.2, hp.3, hp.4, hp.5⟩
    · split at h
      · split at h <;> cases h
        exact ⟨hp.1, hp.2, hp.3, hp.4, hp.5⟩
      · cases h

theorem applyMapping_ok {p q : Profile} {logical mailbox : Bytes} {line : ℕ}
    (h : applyMapping p logical mailbox line = .ok q) (hp : ProfileOk p)
    (hm : validUtf8 mailbox = true) : ProfileOk q := by
  simp only [applyMapping] at h
  split at h
  · cases h
  · rename_i hno
    cases h
    simp only [not_or, Bool.not_eq_false, List.any_eq_true, not_exists, not_and, beq_iff_eq] at hno
    obtain ⟨hlogical, htext, _, hnew⟩ := hno
    obtain ⟨hne, hplain⟩ := profileText_iff.mp htext
    have hall : ∀ m ∈ p.mappings ++ [⟨logical, mailbox⟩],
        m ∈ p.mappings ∨ m = ⟨logical, mailbox⟩ := by simp
    refine ⟨hp.1, hp.2, ?_, ?_, ?_⟩
    · intro m hmem
      rcases hall m hmem with hmem | rfl
      · exact hp.3 m hmem
      · exact ⟨⟨hm, hplain⟩, hne.resolve_left (by simp)⟩
    · intro m hmem
      rcases hall m hmem with hmem | rfl
      · exact hp.4 m hmem
      · exact hlogical
    · simp only [List.map_append, List.map_cons, List.map_nil]
      refine List.nodup_append.mpr ⟨hp.5, by simp, ?_⟩
      intro x hx y hy hxy
      obtain ⟨m, hmem, rfl⟩ := List.mem_map.mp hx
      have hy : y = logical := by simpa using hy
      exact hnew m hmem (hxy.trans hy)

theorem profileRecord_ok {st st' : ProfileState} {tokens : List Bytes} {line : ℕ}
    (h : profileRecord st tokens line = .ok st') (hp : ProfileOk st.profile)
    (hu : ∀ t ∈ tokens, validUtf8 t = true) : ProfileOk st'.profile := by
  have hget : ∀ i, validUtf8 (tokens.getD i []) = true := getD_of_forall hu rfl
  simp only [profileRecord] at h
  split at h
  · split at h
    · cases h
    · obtain ⟨p, hset, rfl⟩ := map_eq_ok_iff.mp h
      exact applySetting_ok hset hp (hget 1)
  · split at h
    · split at h
      · cases h
      · obtain ⟨p, hset, rfl⟩ := map_eq_ok_iff.mp h
        exact applyCapability_ok hset hp
    · split at h
      · split at h
        · cases h
        · obtain ⟨p, hset, rfl⟩ := map_eq_ok_iff.mp h
          exact applyMapping_ok hset hp (hget 2)
      · cases h

theorem policyTokens_spec {s : Bytes} {line : ℕ} {tokens : List Bytes}
    (h : policyTokens s line = .ok tokens) : ∀ t ∈ tokens, validUtf8 t = true := by
  simp only [policyTokens] at h
  split at h
  · cases h
  · split at h
    · rename_i hu
      exact fun t ht => (lex_spec (mapError_eq_ok_iff.mp h) hu t ht).1
    · cases h

theorem profileLoop_ok {line : ℕ} {ls : List Bytes} {st st' : ProfileState}
    (h : profileLoop line ls st = .ok st') (hp : ProfileOk st.profile) : ProfileOk st'.profile := by
  induction ls generalizing line st with
  | nil =>
    cases h
    exact hp
  | cons l ls ih =>
    obtain ⟨tokens, htokens, h⟩ := bind_eq_ok_iff.mp h
    split at h
    · exact ih h hp
    · obtain ⟨mid, hmid, h⟩ := bind_eq_ok_iff.mp h
      exact ih h (profileRecord_ok hmid hp (policyTokens_spec htokens))

theorem defaultProfile_ok (empty : Bool) : ProfileOk (defaultProfile empty) := by
  have hsep : PlainText (cstr "/") := ⟨by decide +kernel, by decide +kernel⟩
  exact ⟨⟨rfl, by simp [defaultProfile]⟩, hsep, by simp [defaultProfile], by simp [defaultProfile],
    by simp [defaultProfile]⟩

/-- Every profile the reader returns is well formed, and only the qualified
profile carries the regex capability. -/
theorem profileParse_ok {data : Bytes} {p : Profile} (h : profileParse data = .ok p) :
    ProfileOk p ∧ p.fileinto = true ∧ (p.regex = true ↔ p.id = .pigeonhole) := by
  simp only [profileParse] at h
  split at h
  · cases h
  · obtain ⟨st, hst, h⟩ := bind_eq_ok_iff.mp h
    have hok := profileLoop_ok hst (defaultProfile_ok _)
    simp only [finishProfile] at h
    split at h
    · cases h
    · split at h
      · cases h
      · rename_i hcap
        split at h
        · cases h
        · rename_i hregex
          cases h
          refine ⟨hok, ?_, ?_⟩
          · by_contra hf
            exact hcap (Or.inl (by simpa using hf))
          · cases hid : st.profile.id <;> simp [hid] at hregex ⊢
            · exact hregex.1
            · exact hregex.1

/-! ### Mailbox names are text -/

theorem destination_iff {s : Bytes} :
    destination s = true ↔ s ≠ [] ∧ s.head? ≠ some 47 ∧ (∀ c ∈ s, isControl c = false) ∧
      componentsOk [] s = true := by
  simp only [destination, Bool.and_eq_true, bne_iff_ne, List.all_eq_true, Bool.not_eq_true',
    and_assoc]

/-- Replacing an ASCII byte by text keeps text. -/
theorem plainText_replace {s sep : Bytes} (hs : PlainText s) (hsep : PlainText sep) :
    PlainText (s.flatMap fun c => if c = 47 then sep else [c]) := by
  refine ⟨?_, ?_⟩
  · suffices hpre : ∀ pre, validUtf8 (pre ++ s) = true →
        validUtf8 (pre ++ s.flatMap fun c => if c = 47 then sep else [c]) = true by
      simpa using hpre [] (by simpa using hs.utf8)
    have hutf := hsep.utf8
    clear hs
    induction s with
    | nil => simp
    | cons c s ih =>
      intro pre hp
      rw [List.flatMap_cons]
      by_cases hc : c = 47
      · subst hc
        obtain ⟨h1, h2⟩ := (validUtf8_append_ascii (by decide) (by decide) _ _).mp hp
        rw [if_pos rfl, validUtf8_append _ h1, validUtf8_append _ hutf]
        simpa using ih [] (by simpa using h2)
      · rw [if_neg hc]
        simpa using ih (pre ++ [c]) (by simpa using hp)
  · intro c hc
    obtain ⟨d, hd, hcd⟩ := List.mem_flatMap.mp hc
    split at hcd
    · exact hsep.plain c hcd
    · rw [List.mem_singleton.mp hcd]
      exact hs.plain d hd

theorem PlainText.append {s t : Bytes} (hs : PlainText s) (ht : PlainText t) :
    PlainText (s ++ t) := by
  refine ⟨by rw [validUtf8_append _ hs.utf8]; exact ht.utf8, ?_⟩
  intro c hc
  rcases List.mem_append.mp hc with hc | hc
  · exact hs.plain c hc
  · exact ht.plain c hc

/-- A destination starts with a byte the mailbox name keeps. -/
theorem mailboxName_ok {p : Profile} (hp : ProfileOk p) {logical : Bytes} (spam : Bool)
    (hl : destination logical = true) (hu : validUtf8 logical = true) :
    PlainText (mailboxName p spam logical) ∧ mailboxName p spam logical ≠ [] := by
  obtain ⟨hne, hhead, hplain, _⟩ := destination_iff.mp hl
  unfold mailboxName
  split
  · rename_i m hm
    exact hp.mailboxes m (List.mem_of_find?_eq_some hm)
  · split
    · exact ⟨⟨by decide +kernel, by decide +kernel⟩, by decide⟩
    · split
      · exact ⟨⟨by decide +kernel, by decide +kernel⟩, by decide⟩
      · refine ⟨hp.namespacePrefix.append (plainText_replace ⟨hu, hplain⟩ hp.separator), ?_⟩
        obtain ⟨c, s, rfl⟩ := List.exists_cons_of_ne_nil hne
        have hc : c ≠ 47 := by simpa using hhead
        simp [hc]

theorem profileMailbox_eq {p : Profile} {r : Rule} {name : Bytes}
    (h : profileMailbox p r = some name) : name = mailboxName p (r.kind == .spamIs) r.logical := by
  simp only [profileMailbox] at h
  split at h
  · cases h
  · exact (Option.some.inj h).symm

theorem mailboxNames_cons {p : Profile} {r : Rule} {rs : List Rule} {names : List Bytes}
    (h : mailboxNames p (r :: rs) = some names) :
    ∃ name rest, names = name :: rest ∧ profileMailbox p r = some name ∧
      mailboxNames p rs = some rest := by
  simp only [mailboxNames, Option.bind_eq_bind, Option.bind_eq_some_iff, Option.pure_def,
    Option.some.injEq] at h
  obtain ⟨name, hname, rest, hrest, rfl⟩ := h
  exact ⟨name, rest, rfl, hname, hrest⟩

theorem mailboxNames_length {p : Profile} {rs : List Rule} {names : List Bytes}
    (h : mailboxNames p rs = some names) : names.length = rs.length := by
  induction rs generalizing names with
  | nil =>
    cases h
    rfl
  | cons r rs ih =>
    obtain ⟨name, rest, rfl, _, hrest⟩ := mailboxNames_cons h
    rw [List.length_cons, List.length_cons, ih hrest]

theorem mailboxNames_get {p : Profile} {rs : List Rule} {names : List Bytes} {i : ℕ} {r : Rule}
    (h : mailboxNames p rs = some names) (hr : rs[i]? = some r) : names[i]? = profileMailbox p r := by
  induction rs generalizing names i with
  | nil => simp at hr
  | cons r' rs ih =>
    obtain ⟨name, rest, rfl, hname, hrest⟩ := mailboxNames_cons h
    cases i with
    | zero =>
      have hrr : r' = r := by simpa using hr
      rw [← hrr, hname]
      rfl
    | succ i =>
      have hi : rs[i]? = some r := by simpa using hr
      simpa using ih hrest hi

theorem mailboxNames_mem {p : Profile} {rs : List Rule} {names : List Bytes} {x : Rule × Bytes}
    (h : mailboxNames p rs = some names) (hx : x ∈ rs.zip names) :
    x.1 ∈ rs ∧ profileMailbox p x.1 = some x.2 := by
  induction rs generalizing names with
  | nil => simp at hx
  | cons r rs ih =>
    obtain ⟨name, rest, rfl, hname, hrest⟩ := mailboxNames_cons h
    rw [List.zip_cons_cons, List.mem_cons] at hx
    rcases hx with rfl | hx
    · exact ⟨by simp, hname⟩
    · obtain ⟨h1, h2⟩ := ih hrest hx
      exact ⟨by simp [h1], h2⟩

theorem mailboxNames_some {p : Profile} {rs : List Rule} {names : List Bytes} {r : Rule}
    (h : mailboxNames p rs = some names) (hr : r ∈ rs) : ∃ name, profileMailbox p r = some name := by
  induction rs generalizing names with
  | nil => simp at hr
  | cons x rs ih =>
    obtain ⟨name, rest, rfl, hname, hrest⟩ := mailboxNames_cons h
    rcases List.mem_cons.mp hr with rfl | hr
    · exact ⟨name, hname⟩
    · exact ih hrest hr

theorem emptyProfile_isOk : (profileParse []).isOk = true := by decide

/-- The profile of an empty file. -/
def sampleProfile : Profile := okValue _ emptyProfile_isOk

theorem profileParse_sample : profileParse [] = .ok sampleProfile := eq_ok_okValue emptyProfile_isOk

end JaroFilter
