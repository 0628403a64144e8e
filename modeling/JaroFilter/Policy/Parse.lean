import JaroFilter.Lib.Sorting
import JaroFilter.Policy.Mailbox

/-!
# Parsing a source snapshot (`policy.c:306-596`)

From the bytes of the policy inputs to the entries in parse order: the inputs
sorted, each read line by line, at most one rule a line, and the three builtin
rules at the end.
-/

namespace JaroFilter

open Lib

/-! ### Destinations -/

def badComponent (s : Bytes) : Bool := s == [] || s == [46] || s == [46, 46]

/-- The component walk of a relative path; `component` is the current one. -/
def componentsOk (component : Bytes) : Bytes → Bool
  | [] => !badComponent component
  | c :: s =>
    if c = 47 then !badComponent component && componentsOk [] s
    else componentsOk (component ++ [c]) s

/-- `destination` (`policy.c:306`). -/
def destination (s : Bytes) : Bool :=
  s != [] && s.head? != some 47 && s.all (fun c => !isControl c) && componentsOk [] s

/-! ### Entries -/

/-- `struct jf_entry` while parsing: the rule, its parse position and the
input it came from. -/
structure Entry where
  rule : Rule
  order : ℕ
  inputIndex : Option ℕ
  deriving DecidableEq, Repr

/-- The rule `append` (`policy.c:323`) fills in; `s` is absent for a builtin. -/
def newRule (s : Option Source) (line : ℕ) (selector predicate logical : Bytes) (kind : Kind)
    (stage fields : ℕ) : Rule where
  kind := kind
  stage := stage
  fields := fields
  selector := selector
  predicate := predicate
  action := cstr "move"
  logical := logical
  localDir := if selector = cstr "spam" then cstr "zz.spam" else logical
  sieve :=
    if logical = cstr "known" then cstr "INBOX"
    else if selector = cstr "spam" then cstr "Spam"
    else logical
  source := (s.map Source.path).getD []
  sourceIdentity := (s.map Source.identity).getD []
  line := line
  occurrence := 1
  id := []

def append (entries : List Entry) (input : Option ℕ) (r : Rule) : List Entry :=
  entries ++ [⟨r, entries.length, input⟩]

/-! ### One line -/

/-- A line of a contact export (`policy.c:359-369`): the trimmed raw mailbox. -/
def parseContact (s : Source) (number : ℕ) (line : Bytes) : Except Fault (Option Rule) :=
  let text := trimBlanks line
  if text = [] then .ok none
  else match normalizeMailbox text with
    | none => .error (fault .eAddress "invalid exported mailbox")
    | some mailbox =>
      if s.kind = .known then
        .ok (some (newRule (some s) number (cstr "known") (foldBytes mailbox) (cstr "known") .address
          5 fieldFrom))
      else
        .ok (some (newRule (some s) number (cstr "blacklist") (foldBytes mailbox)
          (cstr "zz.blacklist") .address 1 fieldFrom))

/-- An account record counts only when its first word is `email`. -/
def isEmailRecord (line : Bytes) : Bool :=
  (line.dropWhile isBlank).takeWhile (fun c => !isBlank c) == cstr "email"

/-- One own mailbox from an account or alias line (`policy.c:377-384`). -/
def parseOwn (s : Source) (number : ℕ) (tokens : List Bytes) : Except Fault (Option Rule) :=
  let position := if s.kind = .account then 1 else 0
  if tokens.length ≠ position + 1 then .error (fault .eFields "expected one mailbox")
  else match normalizeMailbox (tokens.getD position []) with
    | none => .error (fault .eAddress "invalid mailbox")
    | some mailbox =>
      .ok (some (newRule (some s) number (cstr "own") (foldBytes mailbox) (cstr "priv") .address 7
        (fieldTo ||| fieldCc)))

/-- The kind a `Filters` selector announces (`policy.c:389-393`). -/
def selectorKind (t : Bytes) : Option Kind :=
  if t = cstr "known-domain" ∨ t = cstr "from-domain" ∨ t = cstr "to-domain" then some .domainApex
  else if t = cstr "from-address" ∨ t = cstr "to-address" then some .address
  else if t = cstr "from" ∨ t = cstr "to" then some .ere
  else none

/-- The stored kind and predicate of a `Filters` rule (`policy.c:398-406`). -/
def filterPredicate (kind : Kind) (t : Bytes) : Except Fault (Kind × Bytes) :=
  match kind with
  | .domainApex =>
    if cstr "*." <+: t then
      if validDomain (t.drop 2) then .ok (.domainSubdomains, foldBytes t)
      else .error (fault .eDomain "invalid ASCII domain")
    else if validDomain t then .ok (.domainApex, foldBytes t)
    else .error (fault .eDomain "invalid ASCII domain")
  | .address =>
    match normalizeMailbox t with
    | none => .error (fault .eAddress "invalid exact mailbox")
    | some mailbox => .ok (.address, foldBytes mailbox)
  | kind => .ok (kind, t)

/-! What a `Filters` selector decides about its rule; `known` and `is_from` of the source are
`selector = "known-domain"` and the prefix `"from"`. -/

def isKnownDomain (selector : Bytes) : Bool := selector == cstr "known-domain"

def filterArity (selector : Bytes) : ℕ := if isKnownDomain selector then 2 else 4

def filterStage (selector : Bytes) : ℕ :=
  if isKnownDomain selector then 5 else if cstr "from" <+: selector then 3 else 4

def filterFields (selector : Bytes) : ℕ :=
  if isKnownDomain selector then fieldFrom
  else if cstr "from" <+: selector then fieldFrom ||| fieldSender
  else fieldTo ||| fieldCc

/-- A `Filters` line with its tokens (`policy.c:385-411`). -/
def parseFilter (s : Source) (number : ℕ) (tokens : List Bytes) : Except Fault (Option Rule) :=
  let selector := tokens.getD 0 []
  let known := isKnownDomain selector
  let action := tokens.getD 2 []
  match selectorKind selector with
  | none => .error ⟨.eSelector, selector⟩
  | some kind =>
    if tokens.length ≠ filterArity selector then .error (fault .eFields "wrong rule field count")
    else if tokens.getD 1 [] = [] then .error (fault .ePredicate "empty predicate")
    else if !known ∧ action ≠ cstr "move" ∧ action ≠ cstr "save" then .error ⟨.eAction, action⟩
    else if !known ∧ destination (tokens.getD 3 []) = false then
      .error (fault .eDestination "invalid relative destination")
    else match filterPredicate kind (tokens.getD 1 []) with
      | .error f => .error f
      | .ok (kind, predicate) =>
        .ok (some (newRule (some s) number selector predicate
          (if known then cstr "known" else tokens.getD 3 []) kind (filterStage selector)
          (filterFields selector)))

/-- `parse_line` (`policy.c:353`): at most one rule. -/
def parseLine (s : Source) (number : ℕ) (line : Bytes) : Except Fault (Option Rule) :=
  if s.kind = .known ∨ s.kind = .blacklist then parseContact s number line
  else if s.kind = .account ∧ isEmailRecord line = false then .ok none
  else match lex line with
    | .error f => .error f
    | .ok [] => .ok none
    | .ok tokens =>
      if s.kind = .filters then parseFilter s number tokens else parseOwn s number tokens

/-- The line loop of one input (`policy.c:569-580`). -/
def parseLines (s : Source) (index : ℕ) :
    ℕ → List Bytes → List Entry → Except Failure (List Entry)
  | _, [], entries => .ok entries
  | number, l :: ls, entries =>
    let line := chopCr l
    if lineMax < line.length then
      .error ((fault .eLineLimit "policy line exceeds 64 KiB").fail (some index) (number + 1))
    else if validUtf8 line = false then
      .error ((fault .eUtf8 "invalid UTF8 or NUL input").fail (some index) (number + 1))
    else match parseLine s (number + 1) line with
      | .error f => .error (f.fail (some index) (number + 1))
      | .ok none => parseLines s index (number + 1) ls entries
      | .ok (some r) => parseLines s index (number + 1) ls (append entries (some index) r)

/-! ### All inputs -/

/-- `compare_sources` (`policy.c:415`). -/
def compareSources (x y : Source × ℕ) : Ordering :=
  (compare x.1.kind.code y.1.kind.code).then
    ((strcmp x.1.identity y.1.identity).then (compare x.2 y.2))

def checkSource (s : Source) (index : ℕ) : Except Failure Unit :=
  if s.identity = [] then .error ((fault .eArgument "invalid source").fail (some index) 0)
  else if inputMax < s.data.length then
    .error ((fault .eInputLimit "policy input exceeds 64 MiB").fail (some index) 0)
  else .ok ()

/-- The checks before anything is parsed, in the caller's order (`policy.c:548-555`). -/
def checkSources : List (Source × ℕ) → Except Failure Unit
  | [] => .ok ()
  | s :: ss => do
    checkSource s.1 s.2
    checkSources ss

/-- The inputs in their sorted order, each line by line. -/
def parseSources : List (Source × ℕ) → List Entry → Except Failure (List Entry)
  | [], entries => .ok entries
  | s :: ss, entries => do
    let entries ← parseLines s.1 s.2 0 (lines s.1.data) entries
    parseSources ss entries

/-- The three rules every policy ends with (`policy.c:585-587`). -/
def bounceRule : Rule :=
  newRule none 0 (cstr "bounce") (cstr "mailman-bounce") (cstr "zz.bounces") .senderContains 2
    fieldSender

def spamRule : Rule := newRule none 0 (cstr "spam") (cstr "YES") (cstr "spam") .spamIs 6 fieldSpam

def unsortedRule : Rule := newRule none 0 (cstr "unsorted") [] (cstr "unsorted") .always 8 0

def appendBuiltins (entries : List Entry) : List Entry :=
  append (append (append entries none bounceRule) none spamRule) none unsortedRule

/-! ### What a parsed rule is -/

/-- The stages a rule of each kind can stand in, each with its field mask. -/
def placements : Kind → List (ℕ × ℕ)
  | .address => [(1, 1), (3, 3), (4, 12), (5, 1), (7, 12)]
  | .domainApex => [(3, 3), (4, 12), (5, 1)]
  | .domainSubdomains => [(3, 3), (4, 12), (5, 1)]
  | .ere => [(3, 3), (4, 12)]
  | .senderContains => [(2, 2)]
  | .spamIs => [(6, 16)]
  | .always => [(8, 0)]

/-- The stored predicate of each kind is in its normal form. -/
def Normal : Kind → Bytes → Prop
  | .address, p => normalizeMailbox p = some p ∧ foldBytes p = p ∧ validUtf8 p = true
  | .domainApex, p => validDomain p = true ∧ foldBytes p = p
  | .domainSubdomains, p => ∃ d, p = cstr "*." ++ d ∧ validDomain d = true ∧ foldBytes d = d
  | .ere, p => p ≠ [] ∧ p.length ≤ lineMax ∧ validUtf8 p = true
  | .senderContains, p => p = cstr "mailman-bounce"
  | .spamIs, p => p = cstr "YES"
  | .always, p => p = []

/-- The destination every rule of a stage has; stages 3 and 4 name their own. -/
def stageLogical (stage : ℕ) : Option Bytes :=
  if stage = 1 then some (cstr "zz.blacklist")
  else if stage = 2 then some (cstr "zz.bounces")
  else if stage = 5 then some (cstr "known")
  else if stage = 6 then some (cstr "spam")
  else if stage = 7 then some (cstr "priv")
  else if stage = 8 then some (cstr "unsorted")
  else none

def builtinSelector : Kind → Option Bytes
  | .senderContains => some (cstr "bounce")
  | .spamIs => some (cstr "spam")
  | .always => some (cstr "unsorted")
  | _ => none

def isBuiltinSelector (s : Bytes) : Bool :=
  s == cstr "bounce" || s == cstr "spam" || s == cstr "unsorted"

/-- What holds of every rule of a policy, before and after resolution. -/
structure RuleOk (r : Rule) : Prop where
  placed : (r.stage, r.fields) ∈ placements r.kind
  normal : Normal r.kind r.predicate
  selector : if isBuiltinSelector r.selector then builtinSelector r.kind = some r.selector
    else builtinSelector r.kind = none
  logical : destination r.logical = true
  logical_utf8 : validUtf8 r.logical = true
  stage_logical : ∀ d ∈ stageLogical r.stage, r.logical = d
  localDir : r.localDir = if r.selector = cstr "spam" then cstr "zz.spam" else r.logical
  action : r.action = cstr "move"
  source_nul : 0 ∉ r.source
  line : r.line ≤ inputMax

/-- A rule read from an input; the builtins are the other three. -/
structure SourceRule (r : Rule) : Prop extends RuleOk r where
  not_builtin : isBuiltinSelector r.selector = false

theorem isLdh_ascii {c : Byte} (h : isLdh c = true ∨ c = 46) : c < 128 ∧ c ≠ 0 := by
  have hall : ∀ c : Byte, (isLdh c || c == 46) = true → c < 128 ∧ c ≠ 0 := by decide +kernel
  exact hall c (by simpa using h)

theorem validUtf8_ascii {s : Bytes} (h : ∀ c ∈ s, c < 128 ∧ c ≠ 0) : validUtf8 s = true := by
  induction s with
  | nil => rfl
  | cons c s ih =>
    obtain ⟨hc, h0⟩ := h c (by simp)
    rw [validUtf8_cons_ascii hc h0]
    exact ih fun d hd => h d (by simp [hd])

theorem validUtf8_domain {d : Bytes} (h : validDomain d = true) : validUtf8 d = true :=
  validUtf8_ascii fun c hc => isLdh_ascii (validDomain_bytes h c hc)

theorem RuleOk.predicate_nul {r : Rule} (h : RuleOk r) : 0 ∉ r.predicate := by
  have hnormal := h.normal
  refine validUtf8_not_nul ?_
  cases hk : r.kind <;> rw [hk] at hnormal
  case address => exact hnormal.2.2
  case domainApex => exact validUtf8_domain hnormal.1
  case domainSubdomains =>
    obtain ⟨d, heq, hd, _⟩ := hnormal
    rw [heq, validUtf8_append _ (by decide)]
    exact validUtf8_domain hd
  case ere => exact hnormal.2.2
  case senderContains => rw [show r.predicate = cstr "mailman-bounce" from hnormal]; decide
  case spamIs => rw [show r.predicate = cstr "YES" from hnormal]; decide
  case always => rw [show r.predicate = [] from hnormal]; rfl

theorem newRule_ok {s : Source} {number stage fields : ℕ} {selector predicate logical : Bytes}
    {kind : Kind} (hplaced : (stage, fields) ∈ placements kind) (hnormal : Normal kind predicate)
    (hselector : isBuiltinSelector selector = false) (hkind : builtinSelector kind = none)
    (hlogical : destination logical = true) (hutf8 : validUtf8 logical = true)
    (hstage : ∀ d ∈ stageLogical stage, logical = d) (hline : number ≤ inputMax) :
    SourceRule (newRule (some s) number selector predicate logical kind stage fields) where
  placed := hplaced
  normal := hnormal
  selector := by
    simp only [newRule, hselector, Bool.false_eq_true, if_false]
    exact hkind
  logical := hlogical
  logical_utf8 := hutf8
  stage_logical := hstage
  localDir := rfl
  action := rfl
  source_nul := s.path_nul
  line := hline
  not_builtin := hselector

theorem validUtf8_trimBlanks {s : Bytes} (h : validUtf8 s = true) :
    validUtf8 (trimBlanks s) = true := by
  have hd := validUtf8_dropWhile_blank h
  rw [← List.rdropWhile_append_rtakeWhile (p := isBlank) (l := s.dropWhile isBlank)] at hd
  refine (validUtf8_of_append_blank hd ?_).1
  cases hr : (s.dropWhile isBlank).rtakeWhile isBlank with
  | nil => rfl
  | cons c rest =>
    have hc : c ∈ (s.dropWhile isBlank).rtakeWhile isBlank := by simp [hr]
    simpa using List.mem_rtakeWhile_imp hc

theorem normal_address {t m : Bytes} (h : normalizeMailbox t = some m) (ht : validUtf8 t = true) :
    Normal .address (foldBytes m) :=
  ⟨normalizeMailbox_fold h, foldBytes_foldBytes m, validUtf8_fold (normalizeMailbox_utf8 h ht)⟩

theorem parseContact_ok {s : Source} {number : ℕ} {line : Bytes} {r : Rule}
    (h : parseContact s number line = .ok (some r)) (hn : number ≤ inputMax)
    (hu : validUtf8 line = true) : SourceRule r := by
  simp only [parseContact] at h
  split at h
  · cases h
  · split at h
    · cases h
    · rename_i mailbox hm
      have hnormal := normal_address hm (validUtf8_trimBlanks hu)
      split at h
      · cases h
        exact newRule_ok (by decide) hnormal (by decide) rfl (by decide) (by decide) (by decide) hn
      · cases h
        exact newRule_ok (by decide) hnormal (by decide) rfl (by decide) (by decide) (by decide) hn

theorem parseOwn_ok {s : Source} {number : ℕ} {tokens : List Bytes} {r : Rule}
    (h : parseOwn s number tokens = .ok (some r)) (hn : number ≤ inputMax)
    (hu : ∀ t ∈ tokens, validUtf8 t = true) : SourceRule r := by
  simp only [parseOwn] at h
  generalize (if s.kind = .account then 1 else 0) = position at h
  split at h
  · cases h
  · rename_i hlen
    split at h
    · cases h
    · rename_i mailbox hm
      cases h
      have htoken : validUtf8 (tokens.getD position []) = true := getD_of_forall hu rfl position
      exact newRule_ok (by decide) (normal_address hm htoken) (by decide) rfl (by decide) (by decide)
        (by decide) hn

theorem selectorKind_cases {t : Bytes} {k : Kind} (h : selectorKind t = some k) :
    (k = .domainApex ∧ t ∈ [cstr "known-domain", cstr "from-domain", cstr "to-domain"]) ∨
      (k = .address ∧ t ∈ [cstr "from-address", cstr "to-address"]) ∨
      (k = .ere ∧ t ∈ [cstr "from", cstr "to"]) := by
  unfold selectorKind at h
  split at h
  · rename_i hsel
    cases h
    exact Or.inl ⟨rfl, by simpa using hsel⟩
  · split at h
    · rename_i hsel
      cases h
      exact Or.inr (Or.inl ⟨rfl, by simpa using hsel⟩)
    · split at h
      · rename_i hsel
        cases h
        exact Or.inr (Or.inr ⟨rfl, by simpa using hsel⟩)
      · cases h

/-- The stored kind refines the announced one, and the predicate is normal. -/
theorem filterPredicate_ok {sel t p : Bytes} {kind kind' : Kind}
    (hsel : selectorKind sel = some kind) (h : filterPredicate kind t = .ok (kind', p))
    (hu : validUtf8 t = true) (hne : t ≠ []) (hlen : t.length ≤ lineMax) :
    Normal kind' p ∧ (kind' = kind ∨ kind = .domainApex ∧ kind' = .domainSubdomains) := by
  rcases selectorKind_cases hsel with ⟨rfl, _⟩ | ⟨rfl, _⟩ | ⟨rfl, _⟩
  · simp only [filterPredicate] at h
    split at h
    · rename_i hstar
      split at h
      · rename_i hv
        cases h
        obtain ⟨d, rfl⟩ := hstar
        have hd : (cstr "*." ++ d).drop 2 = d := rfl
        have hf : foldBytes (cstr "*.") = cstr "*." := by decide
        rw [hd] at hv
        refine ⟨⟨foldBytes d, by rw [foldBytes_append, hf], ?_, foldBytes_foldBytes d⟩,
          Or.inr ⟨rfl, rfl⟩⟩
        rw [validDomain_fold]
        exact hv
      · cases h
    · split at h
      · rename_i hv
        cases h
        exact ⟨⟨by rw [validDomain_fold]; exact hv, foldBytes_foldBytes t⟩, Or.inl rfl⟩
      · cases h
  · simp only [filterPredicate] at h
    split at h
    · cases h
    · rename_i m hm
      cases h
      exact ⟨normal_address hm hu, Or.inl rfl⟩
  · cases h
    exact ⟨⟨hne, hlen, hu⟩, Or.inl rfl⟩

/-- Every selector places its rules where the stored kind may stand. -/
theorem filter_placed {sel : Bytes} {kind kind' : Kind} (hsel : selectorKind sel = some kind)
    (hk : kind' = kind ∨ kind = .domainApex ∧ kind' = .domainSubdomains) :
    (filterStage sel, filterFields sel) ∈ placements kind' ∧ isBuiltinSelector sel = false ∧
      builtinSelector kind' = none ∧
      (stageLogical (filterStage sel) = if isKnownDomain sel then some (cstr "known") else none) := by
  rcases selectorKind_cases hsel with ⟨rfl, hm⟩ | ⟨rfl, hm⟩ | ⟨rfl, hm⟩
  · simp only [List.mem_cons, List.not_mem_nil, or_false] at hm
    rcases hm with rfl | rfl | rfl <;> rcases hk with rfl | ⟨_, rfl⟩ <;> decide
  · simp only [List.mem_cons, List.not_mem_nil, or_false] at hm
    obtain rfl : kind' = .address := hk.elim id fun h => absurd h.1 (by decide)
    rcases hm with rfl | rfl <;> decide
  · simp only [List.mem_cons, List.not_mem_nil, or_false] at hm
    obtain rfl : kind' = .ere := hk.elim id fun h => absurd h.1 (by decide)
    rcases hm with rfl | rfl <;> decide

theorem parseFilter_ok {s : Source} {number : ℕ} {tokens : List Bytes} {r : Rule}
    (h : parseFilter s number tokens = .ok (some r)) (hn : number ≤ inputMax)
    (hu : ∀ t ∈ tokens, validUtf8 t = true ∧ t.length ≤ lineMax) : SourceRule r := by
  have hget : ∀ i, validUtf8 (tokens.getD i []) = true ∧ (tokens.getD i []).length ≤ lineMax :=
    getD_of_forall hu ⟨rfl, Nat.zero_le _⟩
  simp only [parseFilter] at h
  split at h
  · cases h
  · rename_i kind hkind
    split at h
    · cases h
    · split at h
      · cases h
      · rename_i hne
        split at h
        · cases h
        · split at h
          · cases h
          · rename_i hdest
            split at h
            · cases h
            · rename_i kind' p hp
              obtain ⟨hnormal, hrefines⟩ := filterPredicate_ok hkind hp (hget 1).1 hne (hget 1).2
              obtain ⟨hplaced, hsel, hbuiltin, hstage⟩ := filter_placed hkind hrefines
              have hd : destination (if isKnownDomain (tokens.getD 0 []) then cstr "known"
                  else tokens.getD 3 []) = true := by
                split
                · decide
                · rename_i hk
                  rw [Bool.not_eq_true] at hk
                  by_contra hbad
                  exact hdest ⟨by rw [hk]; rfl, by rwa [Bool.not_eq_true] at hbad⟩
              cases h
              refine newRule_ok hplaced hnormal hsel hbuiltin hd ?_ ?_ hn
              · split
                · decide
                · exact (hget 3).1
              · rw [hstage]
                split <;> simp

theorem parseLine_ok {s : Source} {number : ℕ} {line : Bytes} {r : Rule}
    (h : parseLine s number line = .ok (some r)) (hn : number ≤ inputMax)
    (hlen : line.length ≤ lineMax) (hu : validUtf8 line = true) : SourceRule r := by
  unfold parseLine at h
  split at h
  · exact parseContact_ok h hn hu
  · split at h
    · cases h
    · split at h
      · cases h
      · cases h
      · rename_i tokens _ hlex
        have htokens := lex_spec hlex hu
        split at h
        · exact parseFilter_ok h hn fun t ht => ⟨(htokens t ht).1, (htokens t ht).2.trans hlen⟩
        · exact parseOwn_ok h hn fun t ht => (htokens t ht).1

/-! ### What a run of the parser builds -/

/-- The entries a parse has built: in parse order, each from an input. -/
structure Built (entries : List Entry) : Prop where
  ordered : entries.map Entry.order = List.range entries.length
  rules : ∀ e ∈ entries, SourceRule e.rule

theorem ordered_append {entries : List Entry} (input : Option ℕ) (r : Rule)
    (h : entries.map Entry.order = List.range entries.length) :
    (append entries input r).map Entry.order = List.range (append entries input r).length := by
  simp only [append, List.map_append, h, List.map_cons, List.map_nil, List.length_append,
    List.length_singleton, List.range_succ]

theorem Built.append {entries : List Entry} (h : Built entries) (input : Option ℕ) {r : Rule}
    (hr : SourceRule r) : Built (append entries input r) where
  ordered := ordered_append input r h.ordered
  rules := by
    intro e he
    rcases List.mem_append.mp he with he | he
    · exact h.rules e he
    · rw [List.mem_singleton.mp he]
      exact hr

theorem parseLines_built {s : Source} {index number : ℕ} {ls : List Bytes}
    {entries result : List Entry} (h : parseLines s index number ls entries = .ok result)
    (hn : number + ls.length ≤ inputMax) (hb : Built entries) : Built result := by
  induction ls generalizing number entries with
  | nil =>
    cases h
    exact hb
  | cons l ls ih =>
    simp only [parseLines] at h
    simp only [List.length_cons] at hn
    split at h
    · cases h
    · rename_i hlen
      split at h
      · cases h
      · rename_i hutf
        split at h
        · cases h
        · exact ih h (by omega) hb
        · rename_i r hr
          have hok := parseLine_ok hr (by omega) (by omega) (by simpa using hutf)
          exact ih h (by omega) (hb.append _ hok)

theorem lines_length_le (s : Bytes) : (lines s).length ≤ s.length := by
  induction s with
  | nil => simp
  | cons c s ih =>
    simp only [lines]
    split
    · simpa using ih
    · split
      · simp
      · rename_i l ls hl
        rw [hl] at ih
        simp only [List.length_cons] at ih ⊢
        omega

theorem checkSources_ok {ss : List (Source × ℕ)} (h : checkSources ss = .ok ()) :
    ∀ s ∈ ss, s.1.identity ≠ [] ∧ s.1.data.length ≤ inputMax := by
  induction ss with
  | nil => simp
  | cons s ss ih =>
    obtain ⟨_, hs, hss⟩ := bind_eq_ok_iff.mp h
    intro x hx
    rcases List.mem_cons.mp hx with rfl | hx
    · simp only [checkSource] at hs
      split at hs
      · cases hs
      · split at hs
        · cases hs
        · exact ⟨by assumption, by omega⟩
    · exact ih hss x hx

theorem parseSources_built {ss : List (Source × ℕ)} {entries result : List Entry}
    (h : parseSources ss entries = .ok result) (hs : ∀ s ∈ ss, s.1.data.length ≤ inputMax)
    (hb : Built entries) : Built result := by
  induction ss generalizing entries with
  | nil =>
    cases h
    exact hb
  | cons s ss ih =>
    obtain ⟨mid, hmid, hrest⟩ := bind_eq_ok_iff.mp h
    have hlen := (lines_length_le s.1.data).trans (hs s (by simp))
    have hbuilt := parseLines_built hmid (by omega) hb
    exact ih hrest (fun x hx => hs x (by simp [hx])) hbuilt

end JaroFilter
