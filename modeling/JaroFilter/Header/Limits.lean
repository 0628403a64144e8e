import JaroFilter.Header.Unfold
import JaroFilter.Products.Restore

/-!
# The reader's limits and the classifier's

The classifier charges every mailbox and value of a message to budgets of its
own. What one field adds is never longer than the field, so a message the
reader returns is within all of them, and the checks of `jf_policy_classify`
pass.
-/

namespace JaroFilter

open Lib Rfc822

namespace Unfold

/-! ### The checks of the classifier -/

/-- An address entry the checks accept. -/
structure GoodAddress (a : JaroFilter.Mailbox) : Prop where
  field : a.field = fieldFrom ∨ a.field = fieldSender ∨ a.field = fieldTo ∨ a.field = fieldCc
  text : LineText a.value
  utf8 : validUtf8 a.value = true
  normal : normalizeMailbox a.value = some a.value

/-- The bytes charged to the message itself, and to the Sender mailboxes. -/
def otherBytes (as : List JaroFilter.Mailbox) : ℕ :=
  (as.map fun a => if a.field = fieldSender then 0 else a.value.length).sum

def senderBytes (as : List JaroFilter.Mailbox) : ℕ :=
  (as.map fun a => if a.field = fieldSender then a.value.length else 0).sum

theorem validateText_eq {s : Bytes} {total : ℕ} (h : LineText s)
    (htotal : total + s.length ≤ headersMax) : validateText s total = .ok (total + s.length) := by
  have hlen := h.length
  have hany : (s.any fun c => (c < 32 && c != 9) || c == 127) = false := by
    rw [List.any_eq_false]
    intro c hc
    have := (isText_iff c).mp (h.text c hc)
    simpa using this
  rw [validateText, if_neg (by omega), hany]
  rfl

theorem validateAddresses_eq {as : List JaroFilter.Mailbox} {total senders : ℕ}
    (hgood : ∀ a ∈ as, GoodAddress a) (htotal : total + otherBytes as ≤ headersMax)
    (hsenders : senders + senderBytes as ≤ headersMax) :
    validateAddresses as total senders = .ok (total + otherBytes as, senders + senderBytes as) := by
  induction as generalizing total senders with
  | nil => rfl
  | cons a as ih =>
    have ha := hgood a (by simp)
    have hfield : ¬(a.field ≠ fieldFrom ∧ a.field ≠ fieldSender ∧ a.field ≠ fieldTo ∧
        a.field ≠ fieldCc) := by
      have := ha.field
      tauto
    simp only [otherBytes, senderBytes, List.map_cons, List.sum_cons] at htotal hsenders ⊢
    have ih := fun {total senders : ℕ} =>
      @ih total senders fun x hx => hgood x (by simp [hx])
    rw [validateAddresses, if_neg hfield, chargeAddress]
    by_cases hs : a.field = fieldSender
    · simp only [hs, if_true, Nat.zero_add] at htotal hsenders ⊢
      rw [validateText_eq ha.text (by omega)]
      simp only [Except.map, bind, Except.bind, ha.utf8, ha.normal, Bool.true_eq_false,
        reduceCtorEq, if_false]
      rw [ih htotal (by rw [senderBytes]; omega), otherBytes, senderBytes, Nat.add_assoc]
    · simp only [hs, if_false, Nat.zero_add] at htotal hsenders ⊢
      rw [validateText_eq ha.text (by omega)]
      simp only [Except.map, bind, Except.bind, ha.utf8, ha.normal, Bool.true_eq_false,
        reduceCtorEq, if_false]
      rw [ih (by rw [otherBytes]; omega) hsenders, otherBytes, senderBytes, Nat.add_assoc]

theorem validateTexts_eq {ts : List Bytes} {total : ℕ} (h : ∀ t ∈ ts, LineText t)
    (htotal : total + ts.flatten.length ≤ headersMax) :
    validateTexts ts total = .ok (total + ts.flatten.length) := by
  induction ts generalizing total with
  | nil => rfl
  | cons t ts ih =>
    simp only [List.flatten_cons, List.length_append] at htotal ⊢
    rw [validateTexts, validateText_eq (h t (by simp)) (by omega)]
    refine (ih (fun x hx => h x (by simp [hx])) (by omega)).trans ?_
    rw [Nat.add_assoc]

/-! ### What the fields of a header add -/

/-- A message made of at most `n` bytes of fields. -/
structure Within (m : Message) (n : ℕ) : Prop where
  addresses : ∀ a ∈ m.addresses, GoodAddress a
  senders : ∀ s ∈ m.senders, LineText s
  spamFlags : ∀ s ∈ m.spamFlags, LineText s
  counts : m.addresses.length ≤ n ∧ m.senders.length ≤ n ∧ m.spamFlags.length ≤ n
  mailboxes : otherBytes m.addresses + senderBytes m.addresses + m.spamFlags.flatten.length ≤ n
  values : otherBytes m.addresses + m.senders.flatten.length + m.spamFlags.flatten.length ≤ n

/-- Sender mailboxes and Sender values are charged once, at the larger of the two. -/
theorem Within.valid {m : Message} (h : Within m headersMax) : validateMessage m = .ok () := by
  obtain ⟨h1, h2, h3⟩ := h.counts
  have hm := h.mailboxes
  have hv := h.values
  rw [validateMessage, if_neg (by omega),
    validateAddresses_eq h.addresses (by omega) (by omega)]
  simp only [bind, Except.bind, Nat.zero_add]
  rw [validateTexts_eq h.senders (by omega)]
  simp only [Nat.zero_add]
  rw [if_neg (by omega), validateTexts_eq h.spamFlags (by omega)]
  rfl

theorem Within.mono {m : Message} {n k : ℕ} (h : Within m n) (hk : n ≤ k) : Within m k := by
  obtain ⟨h1, h2, h3⟩ := h.counts
  exact ⟨h.addresses, h.senders, h.spamFlags, ⟨by omega, by omega, by omega⟩,
    h.mailboxes.trans hk, h.values.trans hk⟩

theorem Within.join {m n : Message} {a b : ℕ} (hm : Within m a) (hn : Within n b) :
    Within (join m n) (a + b) := by
  obtain ⟨h1, h2, h3⟩ := hm.counts
  obtain ⟨h4, h5, h6⟩ := hn.counts
  have hmb := hm.mailboxes
  have hnb := hn.mailboxes
  have hmv := hm.values
  have hnv := hn.values
  have hother : otherBytes (m.addresses ++ n.addresses) =
      otherBytes m.addresses + otherBytes n.addresses := by simp [otherBytes]
  have hsender : senderBytes (m.addresses ++ n.addresses) =
      senderBytes m.addresses + senderBytes n.addresses := by simp [senderBytes]
  refine ⟨?_, ?_, ?_, ?_, ?_, ?_⟩
  · intro x hx
    rcases List.mem_append.mp hx with hx | hx
    · exact hm.addresses x hx
    · exact hn.addresses x hx
  · intro x hx
    rcases List.mem_append.mp hx with hx | hx
    · exact hm.senders x hx
    · exact hn.senders x hx
  · intro x hx
    rcases List.mem_append.mp hx with hx | hx
    · exact hm.spamFlags x hx
    · exact hn.spamFlags x hx
  · simp only [Unfold.join, List.length_append]
    omega
  · simp only [Unfold.join, List.flatten_append, List.length_append, hother, hsender]
    omega
  · simp only [Unfold.join, List.flatten_append, List.length_append, hother]
    omega

theorem Mailbox.length_le {x m : Bytes} (h : Rfc822.Mailbox x m) : m.length ≤ x.length := by
  cases h with
  | spec h => exact h.length_le
  | angle _ h _ =>
    have := h.length_le
    simp
    omega

theorem Members.length_le {x : Bytes} {ms : List Bytes} (h : Members x ms) :
    ms.flatten.length ≤ x.length := by
  induction h with
  | last h => simpa using Mailbox.length_le h
  | cons h _ ih =>
    have := Mailbox.length_le h
    simp only [List.flatten_cons, List.length_append, List.length_cons]
    omega

theorem Item.length_le {x : Bytes} {ms : List Bytes} (h : Item x ms) :
    ms.flatten.length ≤ x.length := by
  cases h with
  | mailbox h => simpa using Mailbox.length_le h
  | group h =>
    cases h with
    | empty => simp
    | members _ h _ =>
      have := Members.length_le h
      simp only [List.length_append, List.length_cons]
      omega

/-- The mailboxes of a list are not longer than the list. -/
theorem AddressList.length_le {x : Bytes} {ms : List Bytes} (h : AddressList x ms) :
    ms.flatten.length ≤ x.length := by
  induction h with
  | last h => exact Item.length_le h
  | cons h _ ih =>
    have := Item.length_le h
    simp only [List.flatten_append, List.length_append, List.length_cons]
    omega

theorem normal_good {field : ℕ} {m a : Bytes}
    (hfield : field = fieldFrom ∨ field = fieldSender ∨ field = fieldTo ∨ field = fieldCc)
    (hu : validUtf8 m = true) (hn : normalizeMailbox m = some a) :
    GoodAddress ⟨field, a⟩ ∧ a.length ≤ m.length ∧ 1 ≤ a.length := by
  have hle := normalizeMailbox_length hn
  have hutf8 := normalizeMailbox_utf8 hn hu
  obtain ⟨hlen, l, d, hm, _, rfl⟩ := normalizeMailbox_eq_some_iff.mp hn
  have hpos : 1 ≤ (canonical l d).length := by
    unfold canonical
    split
    · simp
    · simp
      omega
  exact ⟨⟨hfield, ⟨by dsimp only; omega, fun c hc => Or.inr (canonical_text hm c hc)⟩, hutf8,
    normalizeMailbox_canonical hm (by omega)⟩, hle, hpos⟩

theorem normals_within {field : ℕ}
    (hfield : field = fieldFrom ∨ field = fieldSender ∨ field = fieldTo ∨ field = fieldCc)
    {ms as : List Bytes}
    (h : List.Forall₂ (fun m a => validUtf8 m = true ∧ normalizeMailbox m = some a) ms as) :
    (∀ a ∈ as, GoodAddress ⟨field, a⟩) ∧ as.flatten.length ≤ ms.flatten.length ∧
      as.length ≤ as.flatten.length := by
  induction h with
  | nil => simp
  | cons h _ ih =>
    obtain ⟨hgood, hle, hpos⟩ := normal_good hfield h.1 h.2
    obtain ⟨hall, hsum, hcount⟩ := ih
    refine ⟨?_, ?_, ?_⟩
    · intro x hx
      rcases List.mem_cons.mp hx with rfl | hx
      · exact hgood
      · exact hall x hx
    · simp only [List.flatten_cons, List.length_append]
      omega
    · simp only [List.flatten_cons, List.length_append, List.length_cons]
      omega

theorem otherBytes_field (field : ℕ) (as : List Bytes) :
    otherBytes (as.map (⟨field, ·⟩)) = if field = fieldSender then 0 else as.flatten.length := by
  rw [otherBytes, List.map_map]
  split
  · next h => simp [Function.comp_def, h]
  · next h => simp [Function.comp_def, h, List.length_flatten]

theorem senderBytes_field (field : ℕ) (as : List Bytes) :
    senderBytes (as.map (⟨field, ·⟩)) = if field = fieldSender then as.flatten.length else 0 := by
  rw [senderBytes, List.map_map]
  split
  · next h => simp [Function.comp_def, h, List.length_flatten]
  · next h => simp [Function.comp_def, h]

theorem Adds.within {field : ℕ} {value : Bytes} {m : Message} (h : Adds field value m)
    (hvalue : LineText value) : Within m (value.length + 1) := by
  have haddresses : ∀ {f : ℕ} {as : List Bytes},
      (f = fieldFrom ∨ f = fieldSender ∨ f = fieldTo ∨ f = fieldCc) → Addresses value as →
      (∀ a ∈ as.map (⟨f, ·⟩ : Bytes → JaroFilter.Mailbox), GoodAddress a) ∧
        as.flatten.length ≤ value.length ∧ as.length ≤ value.length := by
    intro f as hf has
    obtain ⟨ms, hlist, hall⟩ := has.list
    obtain ⟨hgood, hsum, hcount⟩ := normals_within hf hall
    have := AddressList.length_le hlist
    exact ⟨by simpa using hgood, by omega, by omega⟩
  cases h with
  | other => exact ⟨by simp, by simp, by simp, by simp, by simp [otherBytes, senderBytes],
      by simp [otherBytes]⟩
  | spam =>
    exact ⟨by simp, by simp, by simpa using hvalue, by simp, by simp [otherBytes, senderBytes],
      by simp [otherBytes]⟩
  | @sender _ as has =>
    obtain ⟨hgood, hsum, hcount⟩ := haddresses (Or.inr (Or.inl rfl)) has
    refine ⟨hgood, by simpa using hvalue, by simp, ⟨by simpa using by omega, by simp, by simp⟩, ?_, ?_⟩
    · rw [otherBytes_field, senderBytes_field, if_pos rfl, if_pos rfl]
      simp only [List.flatten_nil, List.length_nil]
      omega
    · rw [otherBytes_field, if_pos rfl]
      simp
  | @address _ _ as hf has =>
    obtain ⟨hgood, hsum, hcount⟩ := haddresses (by tauto) has
    have hne : field ≠ fieldSender := by
      rcases hf with rfl | rfl | rfl <;> decide
    refine ⟨hgood, by simp, by simp, ⟨by simpa using by omega, by simp, by simp⟩, ?_, ?_⟩
    · rw [otherBytes_field, senderBytes_field, if_neg hne, if_neg hne]
      simp only [List.flatten_nil, List.length_nil]
      omega
    · rw [otherBytes_field, if_neg hne]
      simp only [List.flatten_nil, List.length_nil]
      omega

theorem Collects.within {ts : List Bytes} {m : Message} (h : Collects ts m)
    (htext : ∀ t ∈ ts, ∀ c ∈ t, c = 9 ∨ isControl c = false) : Within m ts.flatten.length := by
  induction h with
  | nil => exact ⟨by simp, by simp, by simp, by simp, by simp [otherBytes, senderBytes],
      by simp [otherBytes]⟩
  | @cons t name value ts m n hfield hadds _ ih =>
    have hvalue : LineText value :=
      ⟨hfield.length, fun c hc => htext t (by simp) c (by rw [hfield.eq]; simp [hc])⟩
    have hlen : value.length + 1 ≤ t.length := by
      rw [hfield.eq]
      simp
    have hrest := ih fun x hx => htext x (by simp [hx])
    refine ((hadds.within hvalue).join hrest).mono ?_
    simp only [List.flatten_cons, List.length_append]
    omega

/-- Unfolding moves no byte. -/
theorem unfoldLines_flatten (ls : List Bytes) : (unfoldLines ls).flatten = ls.flatten := by
  fun_induction unfoldLines ls with
  | case1 => rfl
  | case2 l ls ih =>
    rw [List.flatten_cons, ih, List.append_assoc, ← List.flatten_append,
      List.takeWhile_append_dropWhile, List.flatten_cons]

theorem Block.flatten_le {h : Bytes} {ls : List Bytes} (hb : Block h ls) :
    ls.flatten.length ≤ h.length := by
  induction hb with
  | empty => simp
  | @line raw h ls _ _ _ ih =>
    have hchop : (chopCr raw).length ≤ raw.length := by
      unfold chopCr
      split <;> simp
    simp only [List.flatten_cons, List.length_append, List.length_cons]
    omega

/-- What the reader returns fits the classifier's budgets. -/
theorem Reference.within {m : Bytes} {r : MessageHeaders} (h : Reference m r) :
    Within r.message headersMax := by
  obtain ⟨head, hp, hsize, htext, hcollects, _⟩ := h
  obtain ⟨_, _, hb⟩ := headerPart_block hp
  have hall : ∀ t ∈ unfoldLines (physicalLines head), ∀ c ∈ t, c = 9 ∨ isControl c = false := by
    intro t ht c hc
    have hmem : c ∈ (physicalLines head).flatten := by
      rw [← unfoldLines_flatten]
      exact List.mem_flatten.mpr ⟨t, ht, hc⟩
    obtain ⟨l, hl, hc⟩ := List.mem_flatten.mp hmem
    exact (htext l hl).text c hc
  refine (hcollects.within hall).mono ?_
  rw [unfoldLines_flatten]
  exact hb.flatten_le.trans hsize

/-! ### The winner of a parsed message -/

theorem searchLegacy_raises (posix : Posix) (mailbox : Bytes) (field : ℕ) (best : Option ℕ)
    (es : List (Rule × ℕ)) : Raises (·.rc = 3) (searchLegacy posix mailbox field best es) := by
  fun_induction searchLegacy posix mailbox field best es with
  | case1 => exact raises_ok _ _
  | case2 _ _ _ _ ih => exact ih
  | case3 => exact raises_ok _ _
  | case4 _ _ _ _ _ ih => exact ih
  | case5 => exact raises_error rfl
  | case6 => exact raises_ok _ _

theorem searchAddresses_raises (posix : Posix) (p : Policy) (as : List JaroFilter.Mailbox)
    (best : Option ℕ) : Raises (·.rc = 3) (searchAddresses posix p as best) := by
  induction as generalizing best with
  | nil => exact raises_ok _ _
  | cons a as ih => exact raises_bind (searchLegacy_raises _ _ _ _ _) fun _ _ => ih _

theorem searchLegacy_exists {posix : Posix} {mailbox : Bytes} {field : ℕ} {best : Option ℕ}
    {es : List (Rule × ℕ)} (h : ∀ e ∈ es, ∀ text, posix.regexec e.1.predicate text ≠ .failed) :
    ∃ res, searchLegacy posix mailbox field best es = .ok res := by
  fun_induction searchLegacy posix mailbox field best es with
  | case1 => exact ⟨_, rfl⟩
  | case2 _ _ _ _ ih => exact ih fun x hx => h x (by simp [hx])
  | case3 => exact ⟨_, rfl⟩
  | case4 _ _ _ _ _ ih => exact ih fun x hx => h x (by simp [hx])
  | case5 e es _ _ hfailed => exact absurd hfailed (h e (by simp) mailbox)
  | case6 => exact ⟨_, rfl⟩

theorem searchAddresses_exists {posix : Posix} {p : Policy}
    (h : ∀ e ∈ p.legacy, ∀ text, posix.regexec e.1.predicate text ≠ .failed)
    (as : List JaroFilter.Mailbox) (best : Option ℕ) :
    ∃ res, searchAddresses posix p as best = .ok res := by
  induction as generalizing best with
  | nil => exact ⟨best, rfl⟩
  | cons a as ih =>
    obtain ⟨mid, hmid⟩ := searchLegacy_exists h
    obtain ⟨res, hres⟩ := ih mid
    exact ⟨res, bind_eq_ok_iff.mpr ⟨mid, hmid, hres⟩⟩

/-- Of a message the reader returns the classifier refuses nothing, and under a
parsed or restored policy whose patterns run it has a winner. -/
theorem policyClassify_parsed {m : Bytes} {r : MessageHeaders} (hr : headersParse m = .ok r)
    (posix : Posix) :
    (∀ p f, policyClassify posix p r.message = .error f → f.rc = 3) ∧
      ∀ p, ((∃ sources, policyParse posix sources = .ok p) ∨
          ∃ cache, cachePolicy posix cache = .ok p) →
        (∀ e ∈ p.legacy, ∀ text, posix.regexec e.1.predicate text ≠ .failed) →
        ∃ i rule, policyClassify posix p r.message = .ok (some i) ∧ p.rules[i]? = some rule ∧
          Holds posix r.message rule := by
  have hvalid := ((headersParse_iff m r).mp hr).within.valid
  have hclassify : ∀ p, policyClassify posix p r.message =
      searchAddresses posix p r.message.addresses (searchRaw p r.message) := by
    intro p
    rw [policyClassify, hvalid]
    rfl
  constructor
  · intro p f hf
    rw [hclassify] at hf
    exact searchAddresses_raises _ _ _ _ f hf
  · intro p hp hrun
    obtain ⟨res, hres⟩ := searchAddresses_exists hrun r.message.addresses (searchRaw p r.message)
    rw [← hclassify] at hres
    obtain ⟨rules, rfl, hrules⟩ := policy_builtins hp
    obtain ⟨i, rfl, hfirst⟩ := classify_least hrules hres
    obtain ⟨rule, hrule, hholds⟩ := hfirst.1
    exact ⟨i, rule, hres, hrule, hholds⟩

/-- The sample message under the sample policy, and under the one its cache gives back. -/
theorem policyClassify_parsed_sample : ∃ cache q, cachePolicy samplePosix cache = .ok q ∧
    (∃ i rule, policyClassify samplePosix samplePolicy sampleHeaders.message = .ok (some i) ∧
      samplePolicy.rules[i]? = some rule ∧ Holds samplePosix sampleHeaders.message rule) ∧
    ∃ i rule, policyClassify samplePosix q sampleHeaders.message = .ok (some i) ∧
      q.rules[i]? = some rule ∧ Holds samplePosix sampleHeaders.message rule := by
  have hclassify := (policyClassify_parsed ((headersParse_iff _ _).mpr sample_reference) samplePosix).2
  obtain ⟨rules, hrules, hpolicy⟩ := map_eq_ok_iff.mp policyParse_sample
  obtain ⟨out, hbuild⟩ := exists_eq_ok productsBuild_sample_isOk
  rw [← hpolicy] at hbuild
  obtain ⟨_, _, hparts⟩ := productsBuild_parts hbuild
  have hcache := cachePolicy_built (parseRules_resolved hrules) hparts
  refine ⟨out.cache, _, hcache, ?_, ?_⟩
  · exact hclassify samplePolicy (Or.inl ⟨sampleSources, policyParse_sample⟩) fun _ _ _ => by
      simp [samplePosix]
  · exact hclassify _ (Or.inr ⟨out.cache, hcache⟩) fun _ _ _ => by simp [samplePosix]

end Unfold

end JaroFilter
