import JaroFilter.Policy.Resolve

/-!
# The indexed matcher (`classify.c`)

`jf_policy_build_index` and `jf_policy_classify`: a sorted index with bisection
for addresses and domains, an ordered side list for the legacy regexes, and
pointers to the builtins. An entry pointer is the entry's position, `none` is
`NULL`. The statistics argument is not modelled.
-/

namespace JaroFilter

open Lib

/-! ### The index -/

/-- `struct jf_policy` with its index. -/
structure Policy where
  rules : List Rule
  index : List (Rule × ℕ)
  legacy : List (Rule × ℕ)
  bounce : Option ℕ
  spam : Option ℕ
  fallback : Option ℕ
  deriving DecidableEq, Repr

/-- `index_key` (`classify.c:17`): a subdomain rule is indexed without `*.`. -/
def indexKey (r : Rule) : Bytes :=
  if r.kind = .domainSubdomains then r.predicate.drop 2 else r.predicate

/-- Kind first, then key: the part of the index order a lookup sees. -/
def compareKindKey (x y : Kind × Bytes) : Ordering :=
  (compare x.1.code y.1.code).then (strcmp x.2 y.2)

/-- `compare_index` (`classify.c:22`). -/
def compareIndex (x y : Rule × ℕ) : Ordering :=
  (compareKindKey (x.1.kind, indexKey x.1) (y.1.kind, indexKey y.1)).then (compare x.2 y.2)

/-- The last entry of a kind, as the loop over all entries leaves it. -/
def lastOfKind (k : Kind) (rules : List Rule) : Option ℕ :=
  (rules.zipIdx.filter fun e => e.1.kind == k).getLast?.map Prod.snd

/-- `jf_policy_build_index` (`classify.c:31`). -/
def buildIndex (rules : List Rule) : Policy where
  rules := rules
  index := qsort compareIndex (rules.zipIdx.filter fun e => e.1.kind.code ≤ 2)
  legacy := rules.zipIdx.filter fun e => e.1.kind == .ere
  bounce := lastOfKind .senderContains rules
  spam := lastOfKind .spamIs rules
  fallback := lastOfKind .always rules

/-- `jf_policy_parse` (`policy.c:524`). -/
def policyParse (posix : Posix) (sources : List Source) : Except Failure Policy :=
  (parseRules posix sources).map buildIndex

/-! ### Lookup -/

/-- `compare_lookup` (`classify.c:61`). -/
def compareLookup (kind : Kind) (key : Bytes) (e : Rule × ℕ) : Ordering :=
  compareKindKey (kind, key) (e.1.kind, indexKey e.1)

/-- Pointer comparison `p < best`. -/
def before (p best : Option ℕ) : Bool :=
  match p, best with
  | some a, some b => a < b
  | none, some _ => true
  | _, none => false

/-- `lookup` (`classify.c:69`). -/
def lookup (p : Policy) (kind : Kind) (key : Bytes) (field : ℕ) (best : Option ℕ) : Option ℕ :=
  let low := bisect (fun e => compareLookup kind key e == .gt) p.index p.index.length 0 p.index.length
  ((p.index.drop low).takeWhile fun e => compareLookup kind key e == .eq).foldl
    (fun best e => if e.1.fields &&& field ≠ 0 ∧ before (some e.2) best then some e.2 else best) best

/-! ### Input checks -/

/-- `error` (`classify.c:8`). -/
def messageError (code : Code) (detail : String) (rc : ℕ) : Failure :=
  ⟨rc, ⟨code, none, 0, cstr detail⟩⟩

/-- `validate_text` (`classify.c:83`): the new total. -/
def validateText (text : Bytes) (total : ℕ) : Except Failure ℕ :=
  if lineMax < text.length ∨ headersMax - total < text.length then
    .error (messageError .eMessageLimit "parsed message field/total limit exceeded" 7)
  else if text.any fun c => (c < 32 && c != 9) || c == 127 then
    .error (messageError .eMessageText "NUL/control byte in parsed field" 7)
  else .ok (total + text.length)

/-- Sender mailboxes are charged to a total of their own. -/
def chargeAddress (a : Mailbox) (total senders : ℕ) : Except Failure (ℕ × ℕ) :=
  if a.field = fieldSender then (validateText a.value senders).map fun n => (total, n)
  else (validateText a.value total).map fun n => (n, senders)

/-- The address checks (`classify.c:135-145`) with the two running totals. -/
def validateAddresses : List Mailbox → ℕ → ℕ → Except Failure (ℕ × ℕ)
  | [], total, senders => .ok (total, senders)
  | a :: as, total, senders =>
    if a.field ≠ fieldFrom ∧ a.field ≠ fieldSender ∧ a.field ≠ fieldTo ∧ a.field ≠ fieldCc then
      .error (messageError .eMessageField "invalid parsed address field" 7)
    else do
      let charged ← chargeAddress a total senders
      if validUtf8 a.value = false then
        .error (messageError .eMessageAddress "invalid UTF8 mailbox" 7)
      else if normalizeMailbox a.value = none then
        .error (messageError .eMessageAddress "invalid parsed mailbox/domain" 7)
      else validateAddresses as charged.1 charged.2

def validateTexts : List Bytes → ℕ → Except Failure ℕ
  | [], total => .ok total
  | t :: ts, total => do
    let total ← validateText t total
    validateTexts ts total

/-- Everything checked before an early-stage winner is considered (`classify.c:127-162`). -/
def validateMessage (m : Message) : Except Failure Unit :=
  if headersMax < m.addresses.length ∨ headersMax < m.senders.length ∨
      headersMax < m.spamFlags.length then
    .error (messageError .eMessageLimit "too many parsed message fields" 7)
  else do
    let (total, senderAddresses) ← validateAddresses m.addresses 0 0
    let senderValues ← validateTexts m.senders 0
    let senderValues := max senderValues senderAddresses
    if headersMax - total < senderValues then
      .error (messageError .eMessageLimit "parsed message total limit exceeded" 7)
    else do
      let _ ← validateTexts m.spamFlags (total + senderValues)
      return ()

/-! ### Matching -/

/-- `raw_match` (`classify.c:96`): `:contains` on the bytes as they are, `:is`
without outer blanks, both under ASCII case folding. -/
def rawMatch (text key : Bytes) (contains : Bool) : Bool :=
  if contains then text.tails.any fun t => (foldBytes key).isPrefixOf (foldBytes t)
  else foldBytes (trimBlanks text) == foldBytes key

/-- The legacy loop for one mailbox (`classify.c:182-192`). -/
def searchLegacy (posix : Posix) (mailbox : Bytes) (field : ℕ) (best : Option ℕ) :
    List (Rule × ℕ) → Except Failure (Option ℕ)
  | [] => .ok best
  | e :: es =>
    if before (some e.2) best then
      if e.1.fields &&& field = 0 then searchLegacy posix mailbox field best es
      else match posix.regexec e.1.predicate mailbox with
        | .found => .ok (some e.2)
        | .notFound => searchLegacy posix mailbox field best es
        | .failed => .error (messageError .eRegexExec "legacy regex execution failed" 3)
    else .ok best

/-- The three lookups of one mailbox (`classify.c:173-179`). -/
def searchIndex (p : Policy) (mailbox : Bytes) (field : ℕ) (best : Option ℕ) : Option ℕ :=
  let domain := domainOf mailbox
  let best := lookup p .address mailbox field best
  let best := lookup p .domainApex domain field best
  (suffixes domain).foldl (fun best s => lookup p .domainSubdomains s field best) best

def searchAddresses (posix : Posix) (p : Policy) :
    List Mailbox → Option ℕ → Except Failure (Option ℕ)
  | [], best => .ok best
  | a :: as, best => do
    let mailbox := (normalizeMailbox a.value).getD a.value
    let best := searchIndex p (foldBytes mailbox) a.field best
    let best ← searchLegacy posix mailbox a.field best p.legacy
    searchAddresses posix p as best

/-- The winner before any address is seen (`classify.c:163-167`). -/
def searchRaw (p : Policy) (m : Message) : Option ℕ :=
  let best := m.senders.foldl
    (fun best s => if rawMatch s (cstr "mailman-bounce") true then p.bounce else best) p.fallback
  m.spamFlags.foldl
    (fun best s => if rawMatch s (cstr "YES") false && before p.spam best then p.spam else best) best

/-- `jf_policy_classify` (`classify.c:117`): the winner's position. -/
def policyClassify (posix : Posix) (p : Policy) (m : Message) : Except Failure (Option ℕ) := do
  validateMessage m
  searchAddresses posix p m.addresses (searchRaw p m)

/-! ### What a rule means -/

/-- The predicate of a rule holds of one extracted mailbox, read as local part
and domain. -/
def MatchesMailbox (posix : Posix) (r : Rule) (l d : Bytes) : Prop :=
  match r.kind with
  | .address => foldBytes (canonical l d) = r.predicate
  | .domainApex => foldBytes d = r.predicate
  | .domainSubdomains => ∃ ls : List Bytes, ls ≠ [] ∧ (∀ x ∈ ls, IsLabel x) ∧
      foldBytes d = ls.flatMap (· ++ [46]) ++ r.predicate.drop 2
  | .ere => posix.regexec r.predicate (canonical l d) = .found
  | _ => False

/-- Some mailbox in one of the rule's fields has the property. -/
def HoldsAt (posix : Posix) (r : Rule) (a : Mailbox) : Prop :=
  r.fields &&& a.field ≠ 0 ∧
    ∃ l d, IsMailbox l d ∧ Spells a.value l d ∧ MatchesMailbox posix r l d

/-- The rule's predicate holds of the message. -/
def Holds (posix : Posix) (m : Message) (r : Rule) : Prop :=
  match r.kind with
  | .senderContains => ∃ s ∈ m.senders, foldBytes (cstr "mailman-bounce") <:+: foldBytes s
  | .spamIs => ∃ s ∈ m.spamFlags, foldBytes (trimBlanks s) = foldBytes (cstr "YES")
  | .always => True
  | _ => ∃ a ∈ m.addresses, HoldsAt posix r a

/-- Position `i` is the first whose rule satisfies `holds`. -/
def FirstMatch (holds : Rule → Prop) (rules : List Rule) (i : ℕ) : Prop :=
  IsLeast {i | ∃ r, rules[i]? = some r ∧ holds r} i

/-! ### Least positions -/

/-- The positions of the rules with a property. -/
def positions (rules : List Rule) (holds : Rule → Prop) : Set ℕ :=
  {i | ∃ r, rules[i]? = some r ∧ holds r}

@[simp] theorem before_some_some (a b : ℕ) : before (some a) (some b) = decide (a < b) := rfl

theorem positions_union (rules : List Rule) (p q : Rule → Prop) :
    positions rules p ∪ positions rules q = positions rules fun r => p r ∨ q r := by
  ext i
  simp only [positions, Set.mem_union, Set.mem_ofPred_eq]
  constructor
  · rintro (⟨r, hr, h⟩ | ⟨r, hr, h⟩)
    · exact ⟨r, hr, Or.inl h⟩
    · exact ⟨r, hr, Or.inr h⟩
  · rintro ⟨r, hr, h | h⟩
    · exact Or.inl ⟨r, hr, h⟩
    · exact Or.inr ⟨r, hr, h⟩

theorem foldl_least (es : List (Rule × ℕ)) (cond : Rule × ℕ → Prop) [DecidablePred cond] {S : Set ℕ}
    {b : ℕ} (h : IsLeast S b) :
    ∃ b', es.foldl (fun best e => if cond e ∧ before (some e.2) best then some e.2 else best)
        (some b) = some b' ∧ IsLeast (S ∪ {i | ∃ e ∈ es, cond e ∧ e.2 = i}) b' := by
  induction es generalizing S b with
  | nil => exact ⟨b, rfl, by simpa using h⟩
  | cons e es ih =>
    simp only [List.foldl_cons, before_some_some, decide_eq_true_eq]
    by_cases hc : cond e
    · -- A candidate: the smaller of it and the best so far is least of both.
      have hstep : IsLeast (S ∪ {e.2}) (min b e.2) := h.union isLeast_singleton
      have hif : (if cond e ∧ e.2 < b then some e.2 else some b) = some (min b e.2) := by
        by_cases hlt : e.2 < b
        · simp [hc, hlt, Nat.min_eq_right (Nat.le_of_lt hlt)]
        · simp [hlt, Nat.min_eq_left (Nat.le_of_not_lt hlt)]
      rw [hif]
      obtain ⟨b', hb', hl⟩ := ih hstep
      refine ⟨b', hb', ?_⟩
      convert hl using 1
      ext i
      simp only [Set.mem_union, Set.mem_ofPred_eq, List.mem_cons, Set.mem_singleton_iff]
      constructor
      · rintro (hi | ⟨x, rfl | hx, hcx, rfl⟩)
        · exact Or.inl (Or.inl hi)
        · exact Or.inl (Or.inr rfl)
        · exact Or.inr ⟨x, hx, hcx, rfl⟩
      · rintro ((hi | rfl) | ⟨x, hx, hcx, rfl⟩)
        · exact Or.inl hi
        · exact Or.inr ⟨e, Or.inl rfl, hc, rfl⟩
        · exact Or.inr ⟨x, Or.inr hx, hcx, rfl⟩
    · obtain ⟨b', hb', hl⟩ := ih h
      refine ⟨b', by simpa [hc] using hb', ?_⟩
      convert hl using 1
      ext i
      simp only [Set.mem_union, Set.mem_ofPred_eq, List.mem_cons]
      constructor
      · rintro (hi | ⟨x, rfl | hx, hcx, rfl⟩)
        · exact Or.inl hi
        · exact absurd hcx hc
        · exact Or.inr ⟨x, hx, hcx, rfl⟩
      · rintro (hi | ⟨x, hx, hcx, rfl⟩)
        · exact Or.inl hi
        · exact Or.inr ⟨x, Or.inr hx, hcx, rfl⟩

/-! ### The index finds every rule with a key -/

instance : Std.TransCmp compareKindKey :=
  inferInstanceAs (Std.TransCmp (compareLex (compareOn fun x : Kind × Bytes => x.1.code)
    (compareOn Prod.snd)))

instance : Std.TransCmp compareIndex :=
  inferInstanceAs (Std.TransCmp (compareLex
    (compareLex (compareOn fun e : Rule × ℕ => e.1.kind.code) (compareOn fun e => indexKey e.1))
    (compareOn Prod.snd)))

theorem compareKindKey_eq_iff (x y : Kind × Bytes) : compareKindKey x y = .eq ↔ x = y := by
  rw [compareKindKey, Ordering.then_eq_eq, strcmp_eq_iff, Nat.compare_eq_eq, Prod.ext_iff,
    Kind.code_injective.eq_iff]

theorem index_ordered (rules : List Rule) (kind : Kind) (key : Bytes) :
    (buildIndex rules).index.Pairwise fun x y =>
      (compareLookup kind key y = .gt → compareLookup kind key x = .gt) ∧
        (compareLookup kind key x = .lt → compareLookup kind key y = .lt) := by
  refine (pairwise_qsort compareIndex _).imp ?_
  intro x y h
  have hle : (compareKindKey (x.1.kind, indexKey x.1) (y.1.kind, indexKey y.1)).isLE = true := by
    simp only [compareIndex] at h
    cases hc : compareKindKey (x.1.kind, indexKey x.1) (y.1.kind, indexKey y.1) <;>
      simp [hc] at h ⊢
  refine ⟨fun hy => ?_, fun hx => Std.TransCmp.lt_of_lt_of_isLE hx hle⟩
  have hlt := Std.OrientedCmp.lt_of_gt hy
  exact Std.OrientedCmp.gt_of_lt (Std.TransCmp.lt_of_isLE_of_lt hle hlt)

/-- The run a lookup visits is every indexed entry with that kind and key. -/
theorem lookup_run (rules : List Rule) (kind : Kind) (key : Bytes) :
    (((buildIndex rules).index.drop
      (bisect (fun e => compareLookup kind key e == .gt) (buildIndex rules).index
        (buildIndex rules).index.length 0 (buildIndex rules).index.length)).takeWhile
      fun e => compareLookup kind key e == .eq) =
      (buildIndex rules).index.filter fun e => compareLookup kind key e == .eq := by
  have hp := index_ordered rules kind key
  have hm : Monotone (fun e => compareLookup kind key e == .gt) (buildIndex rules).index := by
    refine hp.imp ?_
    intro x y h hy
    simp only [beq_iff_eq] at hy ⊢
    exact h.1 hy
  rw [drop_bisect hm, takeWhile_dropWhile_eq_filter _ _ hp]

theorem mem_index {rules : List Rule} {e : Rule × ℕ} :
    e ∈ (buildIndex rules).index ↔ rules[e.2]? = some e.1 ∧ e.1.kind.code ≤ 2 := by
  simp only [buildIndex, mem_qsort, List.mem_filter, decide_eq_true_eq, List.mem_zipIdx_iff_getElem?]

theorem lookup_least (rules : List Rule) (kind : Kind) (hk : kind.code ≤ 2) (key : Bytes)
    (field : ℕ) {S : Set ℕ} {b : ℕ} (h : IsLeast S b) :
    ∃ b', lookup (buildIndex rules) kind key field (some b) = some b' ∧
      IsLeast (S ∪ positions rules fun r =>
        r.kind = kind ∧ indexKey r = key ∧ r.fields &&& field ≠ 0) b' := by
  obtain ⟨b', hb', hl⟩ := foldl_least
    ((buildIndex rules).index.filter fun e => compareLookup kind key e == .eq)
    (fun e => e.1.fields &&& field ≠ 0) h
  refine ⟨b', by simpa only [lookup, lookup_run] using hb', ?_⟩
  convert hl using 2
  ext i
  simp only [positions, Set.mem_ofPred_eq, List.mem_filter, mem_index, compareLookup, beq_iff_eq,
    compareKindKey_eq_iff, Prod.mk.injEq]
  constructor
  · rintro ⟨r, hr, rfl, rfl, hf⟩
    exact ⟨(r, i), ⟨⟨hr, hk⟩, rfl, rfl⟩, hf, rfl⟩
  · rintro ⟨e, ⟨⟨hr, _⟩, rfl, rfl⟩, hf, rfl⟩
    exact ⟨e.1, hr, rfl, rfl, hf⟩

/-! ### One mailbox -/

theorem suffixes_least (rules : List Rule) (field : ℕ) (ss : List Bytes) {S : Set ℕ} {b : ℕ}
    (h : IsLeast S b) :
    ∃ b', ss.foldl (fun best s => lookup (buildIndex rules) .domainSubdomains s field best)
        (some b) = some b' ∧
      IsLeast (S ∪ positions rules fun r => r.kind = .domainSubdomains ∧ indexKey r ∈ ss ∧
        r.fields &&& field ≠ 0) b' := by
  induction ss generalizing S b with
  | nil => exact ⟨b, rfl, by simpa [positions] using h⟩
  | cons s ss ih =>
    obtain ⟨b1, hb1, hl1⟩ := lookup_least rules .domainSubdomains (by decide) s field h
    obtain ⟨b2, hb2, hl2⟩ := ih hl1
    refine ⟨b2, by rw [List.foldl_cons, hb1, hb2], ?_⟩
    rw [Set.union_assoc, positions_union] at hl2
    convert hl2 using 5 with r
    simp only [List.mem_cons]
    tauto

theorem domainOf_fold_canonical {l d : Bytes} (h : IsMailbox l d) :
    domainOf (foldBytes (canonical l d)) = foldBytes d := by
  rw [foldBytes_canonical]
  exact domainOf_canonical (not_mem_at_of_validDomain h.fold.domain)

/-- Proper suffixes after a dot are the domain without one or more labels. -/
theorem mem_suffixes_iff_labels {d y : Bytes} (h : validDomain d = true) :
    y ∈ suffixes d ↔ ∃ ls : List Bytes, ls ≠ [] ∧ (∀ x ∈ ls, IsLabel x) ∧
      d = ls.flatMap (· ++ [46]) ++ y := by
  rw [mem_suffixes]
  constructor
  · rintro ⟨x, rfl⟩
    obtain ⟨ls, hne, hls, heq⟩ := labels_of_validDomain h
    refine ⟨ls, hne, hls, ?_⟩
    rw [← heq]
    simp
  · rintro ⟨ls, hne, _, heq⟩
    obtain ⟨init, l, hl⟩ := (List.eq_nil_or_concat ls).resolve_left hne
    refine ⟨init.flatMap (· ++ [46]) ++ l, ?_⟩
    rw [heq, hl, List.concat_eq_append]
    simp

theorem searchIndex_least (rules : List Rule) (posix : Posix) {l d : Bytes} (hm : IsMailbox l d)
    (field : ℕ) {S : Set ℕ} {b : ℕ} (h : IsLeast S b) :
    ∃ b', searchIndex (buildIndex rules) (foldBytes (canonical l d)) field (some b) = some b' ∧
      IsLeast (S ∪ positions rules fun r =>
        r.kind ≠ .ere ∧ r.fields &&& field ≠ 0 ∧ MatchesMailbox posix r l d) b' := by
  obtain ⟨b1, hb1, hl1⟩ := lookup_least rules .address (by decide)
    (foldBytes (canonical l d)) field h
  obtain ⟨b2, hb2, hl2⟩ := lookup_least rules .domainApex (by decide) (foldBytes d) field hl1
  obtain ⟨b3, hb3, hl3⟩ := suffixes_least rules field (suffixes (foldBytes d)) hl2
  refine ⟨b3, ?_, ?_⟩
  · simp only [searchIndex, domainOf_fold_canonical hm, hb1, hb2, hb3]
  · rw [Set.union_assoc, Set.union_assoc, positions_union, positions_union] at hl3
    convert hl3 using 4 with r
    rw [mem_suffixes_iff_labels hm.fold.domain]
    cases hk : r.kind <;> simp [MatchesMailbox, indexKey, hk] <;> tauto

theorem searchLegacy_least {posix : Posix} {mailbox : Bytes} {field : ℕ} {es : List (Rule × ℕ)}
    {S : Set ℕ} {b : ℕ} {res : Option ℕ} (h : IsLeast S b)
    (hs : es.Pairwise fun x y => x.2 < y.2)
    (hr : searchLegacy posix mailbox field (some b) es = .ok res) :
    ∃ b', res = some b' ∧ IsLeast (S ∪ {i | ∃ e ∈ es, e.2 = i ∧ e.1.fields &&& field ≠ 0 ∧
      posix.regexec e.1.predicate mailbox = .found}) b' := by
  induction es with
  | nil =>
    cases hr
    exact ⟨b, rfl, by simpa using h⟩
  | cons e es ih =>
    obtain ⟨hlt, hrest⟩ := List.pairwise_cons.mp hs
    -- An entry that does not match leaves the set of candidates as it is.
    have hskip : ¬ (e.1.fields &&& field ≠ 0 ∧ posix.regexec e.1.predicate mailbox = .found) →
        {i | ∃ x ∈ e :: es, x.2 = i ∧ x.1.fields &&& field ≠ 0 ∧
          posix.regexec x.1.predicate mailbox = .found} =
        {i | ∃ x ∈ es, x.2 = i ∧ x.1.fields &&& field ≠ 0 ∧
          posix.regexec x.1.predicate mailbox = .found} := by
      intro hno
      ext i
      simp only [Set.mem_ofPred_eq, List.mem_cons]
      constructor
      · rintro ⟨x, rfl | hx, hi⟩
        · exact absurd hi.2 hno
        · exact ⟨x, hx, hi⟩
      · rintro ⟨x, hx, hi⟩
        exact ⟨x, Or.inr hx, hi⟩
    simp only [searchLegacy, before_some_some, decide_eq_true_eq] at hr
    split at hr
    · rename_i hbefore
      split at hr
      · rename_i hfield
        rw [hskip fun hm => hm.1 hfield]
        exact ih hrest hr
      · rename_i hfield
        split at hr
        · rename_i hfound
          cases hr
          refine ⟨e.2, rfl, Or.inr ⟨e, by simp, rfl, hfield, hfound⟩, ?_⟩
          rintro i (hi | ⟨x, hx, rfl, _⟩)
          · exact (Nat.le_of_lt hbefore).trans (h.2 hi)
          · rcases List.mem_cons.mp hx with rfl | hx
            · exact le_rfl
            · exact Nat.le_of_lt (hlt x hx)
        · rename_i hnot
          rw [hskip fun hm => by simp [hnot] at hm]
          exact ih hrest hr
        · cases hr
    · rename_i hbefore
      cases hr
      refine ⟨b, rfl, Or.inl h.1, ?_⟩
      rintro i (hi | ⟨x, hx, rfl, _⟩)
      · exact h.2 hi
      · rcases List.mem_cons.mp hx with rfl | hx
        · omega
        · have hge := hlt x hx
          omega

theorem mem_legacy {rules : List Rule} {e : Rule × ℕ} :
    e ∈ (buildIndex rules).legacy ↔ rules[e.2]? = some e.1 ∧ e.1.kind = .ere := by
  simp only [buildIndex, List.mem_filter, beq_iff_eq, List.mem_zipIdx_iff_getElem?]

theorem pairwise_zipIdx_snd {α : Type} (l : List α) (n : ℕ) :
    (l.zipIdx n).Pairwise fun x y => x.2 < y.2 := by
  induction l generalizing n with
  | nil => simp
  | cons a l ih =>
    rw [List.zipIdx_cons, List.pairwise_cons]
    refine ⟨?_, ih _⟩
    rintro ⟨x, i⟩ hx
    have hle := List.le_snd_of_mem_zipIdx hx
    exact hle

/-- A mailbox is read as one local part and domain, so the existential of
`HoldsAt` can be taken at that reading. -/
theorem holdsAt_iff {posix : Posix} {r : Rule} {a : Mailbox} {l d : Bytes} (hm : IsMailbox l d)
    (hs : Spells a.value l d) (hlen : a.value.length ≤ lineMax) :
    HoldsAt posix r a ↔ r.fields &&& a.field ≠ 0 ∧ MatchesMailbox posix r l d := by
  constructor
  · rintro ⟨hf, l', d', hm', hs', hmatch⟩
    refine ⟨hf, ?_⟩
    have h1 := normalizeMailbox_eq_some_iff.mpr ⟨hlen, l, d, hm, hs, rfl⟩
    have h2 := normalizeMailbox_eq_some_iff.mpr ⟨hlen, l', d', hm', hs', rfl⟩
    have hcanon : canonical l' d' = canonical l d := by
      rw [h1] at h2
      exact (Option.some.inj h2).symm
    have hdomain : d' = d := by
      rw [← domainOf_canonical (not_mem_at_of_validDomain hm'.domain) (l := l'), hcanon,
        domainOf_canonical (not_mem_at_of_validDomain hm.domain)]
    subst hdomain
    simpa only [MatchesMailbox, hcanon] using hmatch
  · rintro ⟨hf, hmatch⟩
    exact ⟨hf, l, d, hm, hs, hmatch⟩

theorem searchAddress_least {posix : Posix} {rules : List Rule} {a : Mailbox} {S : Set ℕ} {b : ℕ}
    {res : Option ℕ} (h : IsLeast S b) (ha : normalizeMailbox a.value ≠ none)
    (hr : searchLegacy posix ((normalizeMailbox a.value).getD a.value) a.field
      (searchIndex (buildIndex rules) (foldBytes ((normalizeMailbox a.value).getD a.value)) a.field
        (some b)) (buildIndex rules).legacy = .ok res) :
    ∃ b', res = some b' ∧ IsLeast (S ∪ positions rules fun r => HoldsAt posix r a) b' := by
  obtain ⟨n, hn⟩ := Option.ne_none_iff_exists'.mp ha
  obtain ⟨hlen, l, d, hm, hs, rfl⟩ := normalizeMailbox_eq_some_iff.mp hn
  rw [hn, Option.getD_some] at hr
  obtain ⟨b1, hb1, hl1⟩ := searchIndex_least rules posix hm a.field h
  rw [hb1] at hr
  have hsorted : (buildIndex rules).legacy.Pairwise fun x y => x.2 < y.2 :=
    (pairwise_zipIdx_snd rules 0).filter _
  obtain ⟨b2, hb2, hl2⟩ := searchLegacy_least hl1 hsorted hr
  refine ⟨b2, hb2, ?_⟩
  have hset : {i | ∃ e ∈ (buildIndex rules).legacy, e.2 = i ∧ e.1.fields &&& a.field ≠ 0 ∧
      posix.regexec e.1.predicate (canonical l d) = .found} =
      positions rules fun r => r.kind = .ere ∧ r.fields &&& a.field ≠ 0 ∧
        MatchesMailbox posix r l d := by
    ext i
    simp only [positions, Set.mem_ofPred_eq, mem_legacy]
    constructor
    · rintro ⟨e, ⟨hr, hk⟩, rfl, hf, hfound⟩
      exact ⟨e.1, hr, hk, hf, by simpa only [MatchesMailbox, hk] using hfound⟩
    · rintro ⟨r, hr, hk, hf, hfound⟩
      exact ⟨(r, i), ⟨hr, hk⟩, rfl, hf, by simpa only [MatchesMailbox, hk] using hfound⟩
  rw [hset, Set.union_assoc, positions_union] at hl2
  convert hl2 using 4 with r
  rw [holdsAt_iff hm hs hlen]
  tauto

theorem searchAddresses_least {posix : Posix} {rules : List Rule} {as : List Mailbox} {S : Set ℕ}
    {b : ℕ} {res : Option ℕ} (h : IsLeast S b)
    (ha : ∀ a ∈ as, normalizeMailbox a.value ≠ none)
    (hr : searchAddresses posix (buildIndex rules) as (some b) = .ok res) :
    ∃ b', res = some b' ∧
      IsLeast (S ∪ positions rules fun r => ∃ a ∈ as, HoldsAt posix r a) b' := by
  induction as generalizing S b with
  | nil =>
    cases hr
    exact ⟨b, rfl, by simpa [positions] using h⟩
  | cons a as ih =>
    obtain ⟨mid, hmid, hrest⟩ := bind_eq_ok_iff.mp hr
    obtain ⟨b1, rfl, hl1⟩ := searchAddress_least h (ha a (by simp)) hmid
    obtain ⟨b2, hb2, hl2⟩ := ih hl1 (fun x hx => ha x (by simp [hx])) hrest
    refine ⟨b2, hb2, ?_⟩
    rw [Set.union_assoc, positions_union] at hl2
    simpa only [List.exists_mem_cons_iff] using hl2

/-! ### The builtins -/

/-- With one rule of a kind, the pointer the index keeps is its position. -/
theorem lastOfKind_eq {rules : List Rule} {k : Kind}
    (h : rules.countP (fun r => r.kind == k) = 1) :
    ∃ i, lastOfKind k rules = some i ∧ positions rules (fun r => r.kind = k) = {i} := by
  have hmap : (rules.zipIdx.filter fun e => e.1.kind == k).map Prod.fst =
      rules.filter fun r => r.kind == k := by
    rw [← List.zipIdx_map_fst 0 rules, List.filter_map]
    simp [Function.comp_def]
  have hlen : (rules.zipIdx.filter fun e => e.1.kind == k).length = 1 := by
    rw [← List.length_map (f := Prod.fst), hmap, ← List.countP_eq_length_filter]
    exact h
  obtain ⟨⟨r, i⟩, he⟩ := List.length_eq_one_iff.mp hlen
  refine ⟨i, by simp [lastOfKind, he], ?_⟩
  have hmem : ∀ e : Rule × ℕ, rules[e.2]? = some e.1 ∧ e.1.kind = k ↔ e = (r, i) := by
    intro e
    have hiff : e ∈ rules.zipIdx.filter (fun e => e.1.kind == k) ↔ e = (r, i) := by
      rw [he, List.mem_singleton]
    rwa [List.mem_filter, List.mem_zipIdx_iff_getElem?, beq_iff_eq] at hiff
  ext j
  simp only [positions, Set.mem_ofPred_eq, Set.mem_singleton_iff]
  constructor
  · rintro ⟨r', hr', hk⟩
    exact (Prod.mk.inj ((hmem (r', j)).mp ⟨hr', hk⟩)).2
  · rintro rfl
    exact ⟨r, (hmem (r, j)).mpr rfl⟩

theorem rawMatch_contains (text key : Bytes) :
    rawMatch text key true = true ↔ foldBytes key <:+: foldBytes text := by
  simp only [rawMatch, if_true, List.any_eq_true, List.mem_tails, List.isPrefixOf_iff_prefix]
  rw [List.infix_iff_prefix_suffix]
  constructor
  · rintro ⟨t, hs, hp⟩
    exact ⟨foldBytes t, hp, hs.map foldByte⟩
  · rintro ⟨t, hp, hs⟩
    obtain ⟨t', ht', rfl⟩ : ∃ t', t' <:+ text ∧ t = foldBytes t' := List.suffix_map_iff.mp hs
    exact ⟨t', ht', hp⟩

theorem rawMatch_is (text key : Bytes) :
    rawMatch text key false = true ↔ foldBytes (trimBlanks text) = foldBytes key := by
  simp only [rawMatch, Bool.false_eq_true, if_false, beq_iff_eq]

theorem foldl_overwrite {α β : Type} (cond : β → Bool) (x b : α) (ss : List β) :
    ss.foldl (fun best s => if cond s then x else best) b = if ss.any cond then x else b := by
  induction ss generalizing b with
  | nil => simp
  | cons s ss ih =>
    rw [List.foldl_cons, ih, List.any_cons]
    cases cond s <;> simp

theorem foldl_spam {β : Type} (cond : β → Bool) (sp b : ℕ) (ss : List β) :
    ss.foldl (fun best s => if cond s && before (some sp) best then some sp else best) (some b) =
      some (if ss.any cond then min b sp else b) := by
  induction ss generalizing b with
  | nil => simp
  | cons s ss ih =>
    have hstep : (if cond s && before (some sp) (some b) then some sp else some b) =
        some (if cond s then min b sp else b) := by
      cases cond s with
      | false => simp
      | true =>
        by_cases hlt : sp < b
        · simp [hlt, Nat.min_eq_right (Nat.le_of_lt hlt)]
        · simp [hlt, Nat.min_eq_left (Nat.le_of_not_lt hlt)]
    rw [List.foldl_cons, hstep, ih, List.any_cons]
    cases cond s <;> simp

/-- The positions of one kind, when its condition on the message holds. -/
theorem positions_if {rules : List Rule} {k : Kind} {i : ℕ} {c : Bool}
    (h : positions rules (fun r => r.kind = k) = {i}) :
    positions rules (fun r => r.kind = k ∧ c = true) = if c then {i} else ∅ := by
  cases c with
  | false => simp [positions]
  | true => simpa using h

/-- Bounce stands before the fallback, so overwriting keeps the least position. -/
theorem searchRaw_least {rules : List Rule} (hw : HasBuiltins rules) (m : Message) :
    ∃ b, searchRaw (buildIndex rules) m = some b ∧
      IsLeast (positions rules fun r => r.kind = .always ∨
        (r.kind = .senderContains ∧
          m.senders.any (fun s => rawMatch s (cstr "mailman-bounce") true) = true) ∨
        (r.kind = .spamIs ∧ m.spamFlags.any (fun s => rawMatch s (cstr "YES") false) = true)) b := by
  obtain ⟨f, hf, hfpos⟩ := lastOfKind_eq hw.fallback
  obtain ⟨bo, hbo, hbpos⟩ := lastOfKind_eq hw.bounce
  obtain ⟨sp, hsp, hspos⟩ := lastOfKind_eq hw.spam
  have hbf : bo ≤ f := by
    obtain ⟨init, r, hr, hk⟩ := hw.last
    have hlast : init.length ∈ positions rules (fun r => r.kind = .always) :=
      ⟨r, by rw [hr]; simp, hk⟩
    have hbmem : bo ∈ positions rules (fun r => r.kind = .senderContains) := by
      rw [hbpos]
      rfl
    rw [hfpos, Set.mem_singleton_iff] at hlast
    obtain ⟨x, hx, _⟩ := hbmem
    have hlt : bo < rules.length := (List.getElem?_eq_some_iff.mp hx).1
    rw [hr, List.length_append, List.length_singleton] at hlt
    omega
  have hsenders : IsLeast ({f} ∪ if m.senders.any (fun s => rawMatch s (cstr "mailman-bounce") true)
      then ({bo} : Set ℕ) else ∅)
      (if m.senders.any (fun s => rawMatch s (cstr "mailman-bounce") true) then bo else f) := by
    cases m.senders.any fun s => rawMatch s (cstr "mailman-bounce") true with
    | false => simp
    | true =>
      have hmin := (isLeast_singleton (a := f)).union (isLeast_singleton (a := bo))
      rwa [min_eq_right hbf] at hmin
  generalize hb1 : (if m.senders.any (fun s => rawMatch s (cstr "mailman-bounce") true) then bo
    else f) = b1 at hsenders
  refine ⟨if m.spamFlags.any (fun s => rawMatch s (cstr "YES") false) then min b1 sp else b1, ?_, ?_⟩
  · simp only [searchRaw, buildIndex, hf, hbo, hsp]
    rw [foldl_overwrite, ← apply_ite some, hb1, foldl_spam]
  · rw [← positions_union, ← positions_union, positions_if hbpos, positions_if hspos, hfpos,
      ← Set.union_assoc]
    cases m.spamFlags.any fun s => rawMatch s (cstr "YES") false with
    | false => simpa using hsenders
    | true => exact hsenders.union isLeast_singleton

/-! ### The matcher is the first match -/

theorem validateAddresses_ok {as : List Mailbox} {total senders : ℕ} {res : ℕ × ℕ}
    (h : validateAddresses as total senders = .ok res) :
    ∀ a ∈ as, a.field ∈ [fieldFrom, fieldSender, fieldTo, fieldCc] ∧
      normalizeMailbox a.value ≠ none := by
  induction as generalizing total senders with
  | nil => simp
  | cons a as ih =>
    simp only [validateAddresses] at h
    split at h
    · cases h
    · rename_i hfield
      obtain ⟨_, _, h⟩ := bind_eq_ok_iff.mp h
      split at h
      · cases h
      · split at h
        · cases h
        · rename_i hne
          intro x hx
          rcases List.mem_cons.mp hx with rfl | hx
          · refine ⟨?_, hne⟩
            simp only [List.mem_cons, List.not_mem_nil, or_false]
            tauto
          · exact ih h x hx

theorem validateMessage_ok {m : Message} (h : validateMessage m = .ok ()) :
    ∀ a ∈ m.addresses, a.field ∈ [fieldFrom, fieldSender, fieldTo, fieldCc] ∧
      normalizeMailbox a.value ≠ none := by
  simp only [validateMessage] at h
  split at h
  · cases h
  · obtain ⟨_, hok, _⟩ := bind_eq_ok_iff.mp h
    exact validateAddresses_ok hok

theorem holds_iff (posix : Posix) (m : Message) (r : Rule) :
    Holds posix m r ↔
      (r.kind = .always ∨
        (r.kind = .senderContains ∧
          m.senders.any (fun s => rawMatch s (cstr "mailman-bounce") true) = true) ∨
        (r.kind = .spamIs ∧ m.spamFlags.any (fun s => rawMatch s (cstr "YES") false) = true)) ∨
      ∃ a ∈ m.addresses, HoldsAt posix r a := by
  simp only [List.any_eq_true, rawMatch_contains, rawMatch_is]
  cases hk : r.kind <;> simp [Holds, HoldsAt, MatchesMailbox, hk]

/-- On a policy with its builtins the winner is the first rule that holds. -/
theorem classify_least {posix : Posix} {rules : List Rule} (hw : HasBuiltins rules) {m : Message}
    {w : Option ℕ} (h : policyClassify posix (buildIndex rules) m = .ok w) :
    ∃ i, w = some i ∧ FirstMatch (Holds posix m) rules i := by
  obtain ⟨_, hvalid, hsearch⟩ := bind_eq_ok_iff.mp h
  obtain ⟨b, hb, hl⟩ := searchRaw_least hw m
  rw [hb] at hsearch
  have hnorm := fun a ha => (validateMessage_ok hvalid a ha).2
  obtain ⟨i, hi, hl⟩ := searchAddresses_least hl hnorm hsearch
  refine ⟨i, hi, ?_⟩
  rw [positions_union] at hl
  simpa only [FirstMatch, positions, holds_iff] using hl

/-! ### A small policy -/

/-- A C library without patterns to compile. -/
def samplePosix : Posix := ⟨fun _ => none, fun _ _ => .notFound⟩

/-- One filter file with one row. -/
def sampleSources : List Source :=
  [⟨.filters, cstr "Filters", cstr "Filters.txt", cstr "from-address a@b.c save team/x\n",
    by decide, by decide⟩]

theorem sampleSources_isOk : (policyParse samplePosix sampleSources).isOk = true := by
  decide

def samplePolicy : Policy := okValue _ sampleSources_isOk

theorem policyParse_sample : policyParse samplePosix sampleSources = .ok samplePolicy :=
  eq_ok_okValue sampleSources_isOk

/-- A message from the row's address, spelt with capitals. -/
def sampleMessage : Message := ⟨[⟨fieldFrom, cstr "A@B.c"⟩], [], []⟩

theorem policyClassify_sample : policyClassify samplePosix samplePolicy sampleMessage = .ok (some 1) := by
  decide

end JaroFilter
