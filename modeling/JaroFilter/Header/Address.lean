import JaroFilter.Header.Grammar

/-!
# Address lists

The mailbox, group and list loops against the grammar. `rfc822ParseMailboxes_iff`
says that the parser with an emitter that refuses nothing returns success with
`ms` exactly on the lists whose addr-specs are `ms`.
-/

namespace JaroFilter

open Lib

namespace Rfc822

/-! ### Mailboxes -/

/-- A text whose first token is there, and is no semicolon. -/
def Starts (x : Bytes) : Prop :=
  ∀ s, ∃ c v, boundedCfws (x ++ s) = some (c :: v) ∧ c ≠ 59

theorem Starts.append {x : Bytes} (h : Starts x) (y : Bytes) : Starts (x ++ y) := by
  intro s
  rw [List.append_assoc]
  exact h (y ++ s)

/-- A fresh byte other than the semicolon, after spacing, starts a text. -/
theorem starts_of_fresh {p : Bytes} {c : Byte} (hp : Spaced p)
    (hc : isBlank c = false ∧ c ≠ 40) (h59 : c ≠ 59) (x : Bytes) : Starts (p ++ c :: x) := by
  intro s
  refine ⟨c, x ++ s, ?_, h59⟩
  rw [List.append_assoc, cfws_spaced hp, List.cons_append, cfws_fresh (fresh_cons.mpr hc)]

theorem starts_of_run {cls : Byte → Bool} (hcls : TokenClass cls) {p a : Bytes} (hp : Spaced p)
    (ha : Run cls a) (x : Bytes) : Starts (p ++ (a ++ x)) := by
  obtain ⟨hne, hmem⟩ := ha
  cases a with
  | nil => exact absurd rfl hne
  | cons c a =>
    have hc := hmem c (by simp)
    have h59 : c ≠ 59 := by
      rintro rfl
      exact absurd (hcls.clear 59 hc).1 (by decide)
    exact starts_of_fresh hp ⟨hcls.fresh c hc, (hcls.clear c hc).2.1⟩ h59 _

theorem AddrSpec.starts {x m : Bytes} (h : AddrSpec x m) : Starts x := by
  obtain ⟨hp, hx, _, _⟩ := h
  cases hx with
  | atoms h =>
    cases h with
    | last ha _ =>
      rw [List.append_assoc]
      exact starts_of_run tokenClass_atext hp ha _
    | dot ha _ _ _ =>
      rw [List.append_assoc]
      exact starts_of_run tokenClass_atext hp ha _
  | quote _ _ => exact starts_of_fresh hp (by decide) (by decide) _

theorem Phrase.starts {x : Bytes} (h : Phrase x) : Starts x := by
  have hword : ∀ {p w : Bytes}, Spaced p → Word w → ∀ x, Starts (p ++ (w ++ x)) := by
    intro p w hp hw x
    cases hw with
    | quote _ => exact starts_of_fresh hp (by decide) (by decide) _
    | run ha => exact starts_of_run tokenClass_phrase hp ha x
  cases h with
  | last hp hw _ => exact hword hp hw _
  | cons hp hw _ => exact hword hp hw _

theorem Mailbox.starts {x m : Bytes} (h : Mailbox x m) : Starts x := by
  cases h with
  | spec h => exact h.starts
  | angle hn _ _ =>
    rcases hn with hn | hn
    · exact starts_of_fresh hn (by decide) (by decide) _
    · exact hn.starts.append _

theorem Members.starts {x : Bytes} {ms : List Bytes} (h : Members x ms) : Starts x := by
  cases h with
  | last h => exact h.starts
  | cons h _ => exact h.starts.append _

theorem Item.starts {x : Bytes} {ms : List Bytes} (h : Item x ms) : Starts x := by
  cases h with
  | mailbox h => exact h.starts
  | group h =>
    cases h with
    | empty hn _ _ => exact hn.starts.append _
    | members hn _ _ => exact hn.starts.append _

theorem AddressList.starts {x : Bytes} {ms : List Bytes} (h : AddressList x ms) : Starts x := by
  cases h with
  | last h => exact h.starts
  | cons h _ => exact h.starts.append _

theorem boundary_phrase {capacity : ℕ} {x : Bytes} (h : Phrase x) (s : Bytes) :
    boundedBoundary capacity (x ++ s) = boundedBoundary capacity s := by
  have hword : ∀ {p w : Bytes}, Spaced p → Word w → ∀ s,
      boundedBoundary capacity (p ++ (w ++ s)) = boundedBoundary capacity s := by
    intro p w hp hw s
    rw [boundary_spaced hp]
    cases hw with
    | quote hb => exact boundary_quoted hb s
    | run ha => exact boundary_class tokenClass_phrase ha.mem s
  induction h with
  | last hp hw hq =>
    simp only [List.append_assoc]
    rw [hword hp hw, boundary_spaced hq]
  | cons hp hw _ ih =>
    simp only [List.append_assoc]
    rw [hword hp hw, ih]

/-- Where a mailbox ends: at the end, a comma or a semicolon. -/
def AtSeparator (t : Bytes) : Prop := t = [] ∨ t.head? = some 44 ∨ t.head? = some 59

theorem AtSeparator.stop {t : Bytes} (h : AtSeparator t) : AtStop t := by
  intro c u heq
  subst heq
  rcases h with h | h | h
  · simp at h
  · simp only [List.head?_cons, Option.some.injEq] at h
    subst h
    decide
  · simp only [List.head?_cons, Option.some.injEq] at h
    subst h
    decide

theorem AtStop.fresh {t : Bytes} (h : AtStop t) : Fresh t := by
  have hstop : ∀ c : Byte, isStop c = true → isBlank c = false ∧ c ≠ 40 := by decide +kernel
  exact fun c u heq => hstop c (h c u heq)

theorem boundedSpec_complete {capacity : ℕ} {emit : Emit} {sent : List Bytes} {x m t : Bytes}
    (h : AddrSpec x m) (ht : AtStop t) (hroom : x.length < capacity) (hemit : emit sent m = true) :
    boundedSpec capacity emit sent t.length (x ++ t) = (sent ++ [m], .ok ()) := by
  rw [boundedSpec, specText_complete h ht hroom]
  simp [hemit]

theorem boundedMailbox_complete {capacity : ℕ} {emit : Emit} {sent : List Bytes} {x m t : Bytes}
    (h : Mailbox x m) (ht : AtSeparator t) (hroom : x.length < capacity)
    (hemit : emit sent m = true) :
    boundedMailbox capacity emit sent (x ++ t) = (sent ++ [m], .ok t) := by
  cases h with
  | spec h =>
    have hends : ¬ (t.head? = some 58 ∨ t.head? = some 62) ∧ ¬ t.head? = some 60 := by
      rcases ht with rfl | h | h <;> simp_all
    rw [boundedMailbox, boundary_addrSpec h, boundary_atStop ht.stop]
    simp only [hends.1, hends.2, if_false, boundedSpec_complete h ht.stop hroom hemit]
  | @angle n x m q hn hx hq =>
    have hsplit : n ++ 60 :: (x ++ 62 :: q) ++ t = n ++ 60 :: (x ++ 62 :: (q ++ t)) := by simp
    have hopen : AtStop (60 :: (x ++ 62 :: (q ++ t))) := atStop_cons.mpr (by decide)
    have hclose : AtStop (62 :: (q ++ t)) := atStop_cons.mpr (by decide)
    simp only [List.length_append, List.length_cons] at hroom
    have hbound : boundedBoundary capacity (n ++ 60 :: (x ++ 62 :: (q ++ t))) =
        some (60 :: (x ++ 62 :: (q ++ t))) := by
      rcases hn with hn | hn
      · rw [boundary_spaced hn, boundary_atStop hopen]
      · rw [boundary_phrase hn, boundary_atStop hopen]
    -- the span before `<` is spacing, where the start is the end, or a phrase
    have hname : ∃ start, boundedCfws (n ++ 60 :: (x ++ 62 :: (q ++ t))) = some start ∧
        ¬ (start.length ≠ (60 :: (x ++ 62 :: (q ++ t))).length ∧
          boundedPhrase capacity (60 :: (x ++ 62 :: (q ++ t))).length 0 start = false) := by
      rcases hn with hn | hn
      · exact ⟨_, (cfws_spaced hn _).trans (cfws_fresh hopen.fresh), by simp⟩
      · obtain ⟨p, y, hp, hy, rfl, hfresh⟩ := hn.strip
        refine ⟨y ++ 60 :: (x ++ 62 :: (q ++ t)), ?_, ?_⟩
        · rw [List.append_assoc, cfws_spaced hp, cfws_fresh (hfresh _)]
        · rw [phrase_complete hy hopen.fresh]
          simp
    obtain ⟨start, hstart, hphrase⟩ := hname
    have hspec : boundedSpec capacity emit sent (62 :: (q ++ t)).length (x ++ 62 :: (q ++ t)) =
        (sent ++ [m], .ok ()) := boundedSpec_complete hx hclose (by omega) hemit
    have hafter : boundedCfws (q ++ t) = some t := by
      rw [cfws_spaced hq, cfws_fresh ht.stop.fresh]
    have hsep : ¬ (t ≠ [] ∧ t.head? ≠ some 44 ∧ t.head? ≠ some 59) := by
      rcases ht with rfl | h | h <;> simp_all
    have hangle : angleMailbox capacity emit sent (n ++ 60 :: (x ++ 62 :: (q ++ t)))
        (60 :: (x ++ 62 :: (q ++ t))) = (sent ++ [m], .ok t) := by
      simp only [angleMailbox, hstart, hphrase, if_false, List.tail_cons, boundary_addrSpec hx,
        boundary_atStop hclose, List.head?_cons, ne_eq, not_true_eq_false, hspec, hafter]
      rw [if_neg hsep]
    rw [hsplit, boundedMailbox, hbound]
    simp [hangle]

theorem boundedMailbox_cfws {capacity : ℕ} {emit : Emit} {sent : List Bytes} {s u : Bytes}
    (h : boundedCfws s = some u) :
    boundedMailbox capacity emit sent s = boundedMailbox capacity emit sent u := by
  have hu := cfws_idem h
  have hspec : ∀ e, specText capacity e s = specText capacity e u := by
    intro e
    rw [specText, specText, h, hu]
  have hangle : ∀ stop, angleMailbox capacity emit sent s stop =
      angleMailbox capacity emit sent u stop := by
    intro stop
    rw [angleMailbox, angleMailbox, h, hu]
  rw [boundedMailbox, boundary_cfws, h, Option.bind_some, boundedMailbox]
  simp only [boundedSpec, hspec, hangle]

/-- Two ends of one text that leave as many bytes are the same. -/
theorem suffix_unique {x y t u : Bytes} (h : x ++ t = y ++ u) (hlen : t.length = u.length) :
    t = u ∧ x = y := by
  have hx := (List.append_inj' h hlen)
  exact ⟨hx.2, hx.1⟩

theorem boundedSpec_sound {capacity e : ℕ} {emit : Emit} {sent sent' : List Bytes} {s : Bytes}
    (hroom : s.length < capacity) (h : boundedSpec capacity emit sent e s = (sent', .ok ())) :
    ∃ x m t, AddrSpec x m ∧ s = x ++ t ∧ t.length = e ∧ sent' = sent ++ [m] := by
  unfold boundedSpec at h
  split at h
  · simp at h
  · next m hm =>
    obtain ⟨x, t, hx, hs, ht⟩ := specText_sound hroom hm
    simp only [Prod.mk.injEq] at h
    exact ⟨x, m, t, hx, hs, ht, h.1.symm⟩

/-- The span that a phrase was read from, when no token was read before. -/
theorem phrase_span {capacity : ℕ} {n p start stop : Bytes} (hp : Spaced p)
    (hs : n ++ stop = p ++ start) (h : boundedPhrase capacity stop.length 0 start = true) :
    Phrase n := by
  have he : stop.length ≤ start.length := by
    by_contra hlt
    rw [boundedPhrase, if_pos (by omega)] at h
    simp at h
  obtain ⟨y, v, rfl, hv, hy⟩ := phrase_sound he h
  have hy : Phrase y := hy.resolve_right fun h0 => h0.1 rfl
  obtain ⟨rfl, rfl⟩ := suffix_unique (x := n) (y := p ++ y) (by rw [hs, List.append_assoc]) hv.symm
  exact hy.lead hp

/-- The span before `<` is spacing or a phrase. -/
theorem name_span {capacity : ℕ} {n p start stop : Bytes} (hp : Spaced p)
    (hs : n ++ stop = p ++ start)
    (h : ¬ (start.length ≠ stop.length ∧ boundedPhrase capacity stop.length 0 start = false)) :
    Spaced n ∨ Phrase n := by
  by_cases hlen : start.length = stop.length
  · obtain ⟨_, rfl⟩ := suffix_unique hs.symm hlen
    exact Or.inl hp
  · cases hb : boundedPhrase capacity stop.length 0 start with
    | true => exact Or.inr (phrase_span hp hs hb)
    | false => exact absurd ⟨hlen, hb⟩ h

theorem head_eq_some {c : Byte} {s : Bytes} (h : s.head? = some c) : ∃ t, s = c :: t := by
  cases s with
  | nil => simp at h
  | cons d t => exact ⟨t, by simpa using h⟩

theorem angleMailbox_sound {capacity : ℕ} {emit : Emit} {sent sent' : List Bytes}
    {n rest t : Bytes} (hroom : rest.length < capacity)
    (h : angleMailbox capacity emit sent (n ++ 60 :: rest) (60 :: rest) = (sent', .ok t)) :
    ∃ x m, Mailbox x m ∧ n ++ 60 :: rest = x ++ t ∧ sent' = sent ++ [m] := by
  unfold angleMailbox at h
  split at h
  · simp at h
  · next start hstart =>
    obtain ⟨_, p, hp, hps⟩ := cfws_sound hstart
    split at h
    · simp at h
    · next hphrase =>
      have hn := name_span hp hps hphrase
      split at h
      · simp at h
      · next close hclose =>
        obtain ⟨_, y, hy⟩ := boundary_sound hclose
        split at h
        · simp at h
        · next hgt =>
          obtain ⟨rest2, rfl⟩ := head_eq_some (not_not.mp hgt)
          split at h
          · simp at h
          · next sent1 hspec =>
            obtain ⟨x, m, u, hx, hsplit, hu, rfl⟩ := boundedSpec_sound hroom hspec
            obtain ⟨rfl, _⟩ := suffix_unique (hsplit.symm.trans hy) hu
            split at h
            · simp at h
            · next after hafter =>
              obtain ⟨_, q, hq, hqs⟩ := cfws_sound hafter
              split at h
              · simp at h
              · simp only [Prod.mk.injEq, Except.ok.injEq] at h
                obtain ⟨rfl, rfl⟩ := h
                simp only [List.tail_cons] at hsplit hqs
                exact ⟨_, m, .angle hn hx hq, by rw [hsplit, hqs]; simp, rfl⟩

theorem boundedMailbox_sound {capacity : ℕ} {emit : Emit} {sent sent' : List Bytes} {s t : Bytes}
    (hroom : s.length < capacity)
    (h : boundedMailbox capacity emit sent s = (sent', .ok t)) :
    ∃ x m, Mailbox x m ∧ s = x ++ t ∧ sent' = sent ++ [m] := by
  unfold boundedMailbox at h
  split at h
  · simp at h
  · next stop hstop =>
    obtain ⟨_, n, rfl⟩ := boundary_sound hstop
    split at h
    · simp at h
    · split at h
      · next hlt =>
        obtain ⟨rest, rfl⟩ := head_eq_some hlt
        simp only [List.length_append, List.length_cons] at hroom
        exact angleMailbox_sound (by omega) h
      · split at h
        · simp at h
        · next sent1 hspec =>
          obtain ⟨x, m, u, hx, hsplit, hu, rfl⟩ := boundedSpec_sound hroom hspec
          obtain ⟨rfl, rfl⟩ := suffix_unique hsplit hu.symm
          simp only [Prod.mk.injEq, Except.ok.injEq] at h
          obtain ⟨rfl, rfl⟩ := h
          exact ⟨n, m, .spec hx, rfl, rfl⟩

/-! ### Groups and lists -/

theorem memberLoop_cfws {capacity : ℕ} {emit : Emit} {sent : List Bytes} {s u : Bytes}
    (h : boundedCfws s = some u) :
    memberLoop capacity emit sent s = memberLoop capacity emit sent u := by
  have hm : boundedMailbox capacity emit sent s = boundedMailbox capacity emit sent u :=
    boundedMailbox_cfws h
  fun_cases memberLoop capacity emit sent s <;> fun_cases memberLoop capacity emit sent u <;>
    simp_all

theorem memberLoop_sound {capacity : ℕ} {emit : Emit} {sent sent' : List Bytes} {s t : Bytes}
    (hroom : s.length < capacity) (h : memberLoop capacity emit sent s = (sent', .ok t)) :
    ∃ x ms, Members x ms ∧ s = x ++ t ∧ t.head? = some 59 ∧ sent' = sent ++ ms := by
  fun_induction memberLoop capacity emit sent s with
  | case1 => simp at h
  | case2 => simp at h
  | case3 sent s sent1 u hm =>
    obtain ⟨x, m, hx, rfl, rfl⟩ := boundedMailbox_sound hroom hm
    simp only [Prod.mk.injEq, Except.ok.injEq] at h
    obtain ⟨rfl, rfl⟩ := h
    exact ⟨x, [m], .last hx, rfl, rfl, rfl⟩
  | case4 => simp at h
  | case5 => simp at h
  | case6 => simp at h
  | case7 sent s sent1 c u hm _ hcomma v hv _ ih =>
    obtain ⟨x, m, hx, rfl, rfl⟩ := boundedMailbox_sound hroom hm
    obtain ⟨_, p, hp, rfl⟩ := cfws_sound hv
    simp only [List.length_append, List.length_cons] at hroom
    obtain ⟨y, ms, hy, rfl, hhead, rfl⟩ := ih (by omega) h
    have h44 : c = 44 := not_not.mp hcomma
    subst h44
    exact ⟨_, _, .cons hx (hy.lead hp), by simp, hhead, by simp⟩

theorem memberLoop_complete {capacity : ℕ} {emit : Emit} {sent : List Bytes} {x u : Bytes}
    {ms : List Bytes} (h : Members x ms) (hemit : ∀ m ∈ ms, ∀ sent, emit sent m = true)
    (hroom : x.length < capacity) :
    memberLoop capacity emit sent (x ++ 59 :: u) = (sent ++ ms, .ok (59 :: u)) := by
  induction h generalizing sent with
  | @last x m hx =>
    have hm : boundedMailbox capacity emit sent (x ++ 59 :: u) = (sent ++ [m], .ok (59 :: u)) :=
      boundedMailbox_complete hx (Or.inr (Or.inr rfl)) hroom (hemit m (by simp) sent)
    fun_cases memberLoop capacity emit sent (x ++ 59 :: u) <;> simp_all
  | @cons x m y ms hx hy ih =>
    simp only [List.length_append, List.length_cons] at hroom
    have hm : boundedMailbox capacity emit sent (x ++ 44 :: (y ++ 59 :: u)) =
        (sent ++ [m], .ok (44 :: (y ++ 59 :: u))) :=
      boundedMailbox_complete hx (Or.inr (Or.inl rfl)) (by omega) (hemit m (by simp) sent)
    obtain ⟨c, v, hv, hc⟩ := hy.starts (59 :: u)
    have hnext : memberLoop capacity emit (sent ++ [m]) (y ++ 59 :: u) =
        (sent ++ [m] ++ ms, .ok (59 :: u)) :=
      ih (fun n hn => hemit n (List.mem_cons_of_mem _ hn)) (by omega)
    rw [memberLoop_cfws hv] at hnext
    have hsplit : x ++ 44 :: y ++ 59 :: u = x ++ 44 :: (y ++ 59 :: u) := by simp
    rw [hsplit]
    fun_cases memberLoop capacity emit sent (x ++ 44 :: (y ++ 59 :: u)) <;> grind

theorem boundedGroup_complete {capacity : ℕ} {emit : Emit} (sent : List Bytes) {x t : Bytes}
    {ms : List Bytes} (h : Group x ms) (hemit : ∀ m ∈ ms, ∀ sent, emit sent m = true) (ht : Fresh t) (hroom : x.length < capacity) :
    ∃ stop, boundedBoundary capacity (x ++ t) = some stop ∧ stop.head? = some 58 ∧
      boundedGroup capacity emit sent (x ++ t) stop = (sent ++ ms, .ok t) := by
  have hcolon : ∀ {s : Bytes}, AtStop (58 :: s) := atStop_cons.mpr (by decide)
  have hsemi : ∀ {s : Bytes}, Fresh (59 :: s) := fresh_cons.mpr (by decide)
  cases h with
  | @empty n b q hn hb hq =>
    have hsplit : n ++ 58 :: (b ++ 59 :: q) ++ t = n ++ 58 :: (b ++ 59 :: (q ++ t)) := by simp
    refine ⟨58 :: (b ++ 59 :: (q ++ t)), ?_, rfl, ?_⟩
    · rw [hsplit, boundary_phrase hn, boundary_atStop hcolon]
    · rw [hsplit, boundedGroup, phrase_complete hn hcolon.fresh]
      simp [cfws_spaced hb, cfws_fresh hsemi, cfws_spaced hq, cfws_fresh ht]
  | @members n y q _ hn hy hq =>
    have hsplit : n ++ 58 :: (y ++ 59 :: q) ++ t = n ++ 58 :: (y ++ 59 :: (q ++ t)) := by simp
    obtain ⟨c, v, hv, hc⟩ := hy.starts (59 :: (q ++ t))
    simp only [List.length_append, List.length_cons] at hroom
    have hloop : memberLoop capacity emit sent (c :: v) =
        (sent ++ ms, .ok (59 :: (q ++ t))) := by
      rw [← memberLoop_cfws hv]
      exact memberLoop_complete hy hemit (by omega)
    refine ⟨58 :: (y ++ 59 :: (q ++ t)), ?_, rfl, ?_⟩
    · rw [hsplit, boundary_phrase hn, boundary_atStop hcolon]
    · rw [hsplit, boundedGroup, phrase_complete hn hcolon.fresh]
      simp [hv, hc, hloop, cfws_spaced hq, cfws_fresh ht]

theorem boundedGroup_sound {capacity : ℕ} {emit : Emit} {sent sent' : List Bytes} {n rest t : Bytes}
    (hroom : rest.length < capacity)
    (h : boundedGroup capacity emit sent (n ++ 58 :: rest) (58 :: rest) = (sent', .ok t)) :
    ∃ x ms, Group x ms ∧ n ++ 58 :: rest = x ++ t ∧ sent' = sent ++ ms := by
  unfold boundedGroup at h
  split at h
  · simp at h
  · next hphrase =>
    have htrue : boundedPhrase capacity (58 :: rest).length 0 (n ++ 58 :: rest) = true :=
      eq_true_of_ne_false hphrase
    have hn : Phrase n := phrase_span (p := []) .nil rfl htrue
    split at h
    · simp at h
    · next u hu =>
      obtain ⟨_, b, hb, hbs⟩ := cfws_sound hu
      simp only [List.tail_cons] at hbs
      subst hbs
      split at h
      · simp at h
      · next sent1 v hv =>
        split at h
        · simp at h
        · next w hw =>
          obtain ⟨_, q, hq, hqs⟩ := cfws_sound hw
          simp only [Prod.mk.injEq, Except.ok.injEq] at h
          obtain ⟨rfl, rfl⟩ := h
          split at hv
          · next hsemi =>
            obtain ⟨r, rfl⟩ := head_eq_some hsemi
            simp only [Prod.mk.injEq, Except.ok.injEq] at hv
            obtain ⟨rfl, rfl⟩ := hv
            simp only [List.tail_cons] at hqs
            exact ⟨_, [], .empty hn hb hq, by rw [hqs]; simp, by simp⟩
          · simp only [List.length_append] at hroom
            obtain ⟨y, ms, hy, hys, hsemi, rfl⟩ := memberLoop_sound (by omega) hv
            obtain ⟨r, rfl⟩ := head_eq_some hsemi
            simp only [List.tail_cons] at hqs
            exact ⟨_, ms, .members hn (hy.lead hb) hq, by rw [hys, hqs]; simp, rfl⟩

theorem boundedItem_cfws {capacity : ℕ} {emit : Emit} {sent : List Bytes} {s u : Bytes}
    (h : boundedCfws s = some u) :
    boundedItem capacity emit sent s = boundedItem capacity emit sent u := by
  rw [boundedItem, boundary_cfws, h, Option.bind_some, boundedItem, boundedMailbox_cfws h]
  split
  · rfl
  · next stop hstop =>
    have hle := boundedBoundary_length hstop
    rw [boundedGroup, phrase_cfws h hle, boundedGroup]

theorem boundedItem_mailbox {capacity : ℕ} {emit : Emit} {sent : List Bytes} {x m t : Bytes}
    (h : Mailbox x m) (ht : AtSeparator t) (hroom : x.length < capacity)
    (hemit : emit sent m = true) :
    boundedItem capacity emit sent (x ++ t) = (sent ++ [m], .ok t) := by
  have hbound : ∃ stop, boundedBoundary capacity (x ++ t) = some stop ∧ stop.head? ≠ some 58 := by
    cases h with
    | spec h =>
      refine ⟨t, by rw [boundary_addrSpec h, boundary_atStop ht.stop], ?_⟩
      rcases ht with rfl | h | h <;> simp_all
    | @angle n x _ q hn _ _ =>
      have hopen : AtStop (60 :: (x ++ 62 :: (q ++ t))) := atStop_cons.mpr (by decide)
      have hsplit : n ++ 60 :: (x ++ 62 :: q) ++ t = n ++ 60 :: (x ++ 62 :: (q ++ t)) := by simp
      refine ⟨60 :: (x ++ 62 :: (q ++ t)), ?_, by simp⟩
      rw [hsplit]
      rcases hn with hn | hn
      · rw [boundary_spaced hn, boundary_atStop hopen]
      · rw [boundary_phrase hn, boundary_atStop hopen]
  obtain ⟨stop, hstop, hhead⟩ := hbound
  rw [boundedItem, hstop]
  simp only [hhead, if_false]
  exact boundedMailbox_complete h ht hroom hemit

theorem boundedItem_complete {capacity : ℕ} {emit : Emit} {sent : List Bytes} {x t : Bytes}
    {ms : List Bytes} (h : Item x ms) (hemit : ∀ m ∈ ms, ∀ sent, emit sent m = true) (ht : AtSeparator t) (hroom : x.length < capacity) :
    boundedItem capacity emit sent (x ++ t) = (sent ++ ms, .ok t) := by
  cases h with
  | mailbox h => exact boundedItem_mailbox h ht hroom (hemit _ (by simp) sent)
  | group h =>
    obtain ⟨stop, hstop, hhead, hgroup⟩ := boundedGroup_complete sent h hemit ht.stop.fresh hroom
    rw [boundedItem, hstop]
    simp only [hhead, if_true, hgroup]

theorem boundedItem_sound {capacity : ℕ} {emit : Emit} {sent sent' : List Bytes} {s t : Bytes}
    (hroom : s.length < capacity) (h : boundedItem capacity emit sent s = (sent', .ok t)) :
    ∃ x ms, Item x ms ∧ s = x ++ t ∧ sent' = sent ++ ms := by
  unfold boundedItem at h
  split at h
  · simp at h
  · next stop hstop =>
    obtain ⟨_, n, rfl⟩ := boundary_sound hstop
    split at h
    · next hcolon =>
      obtain ⟨rest, rfl⟩ := head_eq_some hcolon
      simp only [List.length_append, List.length_cons] at hroom
      obtain ⟨x, ms, hx, hs, hsent⟩ := boundedGroup_sound (by omega) h
      exact ⟨x, ms, .group hx, hs, hsent⟩
    · obtain ⟨x, m, hx, hs, hsent⟩ := boundedMailbox_sound hroom h
      exact ⟨x, [m], .mailbox hx, hs, hsent⟩

theorem mailboxesLoop_cfws {capacity : ℕ} {emit : Emit} {sent : List Bytes} {s u : Bytes}
    (h : boundedCfws s = some u) :
    mailboxesLoop capacity emit sent s = mailboxesLoop capacity emit sent u := by
  have hi : boundedItem capacity emit sent s = boundedItem capacity emit sent u :=
    boundedItem_cfws h
  fun_cases mailboxesLoop capacity emit sent s <;> fun_cases mailboxesLoop capacity emit sent u <;>
    simp_all

theorem mailboxesLoop_sound {capacity : ℕ} {emit : Emit} {sent sent' : List Bytes} {s : Bytes}
    (hroom : s.length < capacity) (h : mailboxesLoop capacity emit sent s = (sent', .ok ())) :
    ∃ ms, AddressList s ms ∧ sent' = sent ++ ms := by
  fun_induction mailboxesLoop capacity emit sent s with
  | case1 => simp at h
  | case2 sent s sent1 hi =>
    obtain ⟨x, ms, hx, rfl, rfl⟩ := boundedItem_sound hroom hi
    simp only [Prod.mk.injEq, and_true] at h
    subst h
    exact ⟨ms, by simpa using AddressList.last hx, rfl⟩
  | case3 => simp at h
  | case4 => simp at h
  | case5 => simp at h
  | case6 sent s sent1 c u hi hcomma v hv _ ih =>
    obtain ⟨x, ms, hx, rfl, rfl⟩ := boundedItem_sound hroom hi
    obtain ⟨_, p, hp, rfl⟩ := cfws_sound hv
    simp only [List.length_append, List.length_cons] at hroom
    obtain ⟨ns, hy, rfl⟩ := ih (by omega) h
    have h44 : c = 44 := not_not.mp hcomma
    subst h44
    exact ⟨_, .cons hx (hy.lead hp), by simp⟩

theorem mailboxesLoop_complete {capacity : ℕ} {emit : Emit} {sent : List Bytes} {x : Bytes}
    {ms : List Bytes} (h : AddressList x ms) (hemit : ∀ m ∈ ms, ∀ sent, emit sent m = true)
    (hroom : x.length < capacity) :
    mailboxesLoop capacity emit sent x = (sent ++ ms, .ok ()) := by
  induction h generalizing sent with
  | @last x ms hx =>
    have hi : boundedItem capacity emit sent (x ++ []) = (sent ++ ms, .ok []) :=
      boundedItem_complete hx hemit (Or.inl rfl) hroom
    rw [List.append_nil] at hi
    fun_cases mailboxesLoop capacity emit sent x <;> simp_all
  | @cons x y ms ns hx hy ih =>
    simp only [List.length_append, List.length_cons] at hroom
    have hi : boundedItem capacity emit sent (x ++ 44 :: y) = (sent ++ ms, .ok (44 :: y)) :=
      boundedItem_complete hx (fun m hm => hemit m (List.mem_append_left _ hm))
        (Or.inr (Or.inl rfl)) (by omega)
    obtain ⟨c, v, hv, _⟩ := hy.starts []
    rw [List.append_nil] at hv
    have hnext : mailboxesLoop capacity emit (sent ++ ms) y = (sent ++ ms ++ ns, .ok ()) :=
      ih (fun m hm => hemit m (List.mem_append_right _ hm)) (by omega)
    rw [mailboxesLoop_cfws hv] at hnext
    fun_cases mailboxesLoop capacity emit sent (x ++ 44 :: y) <;> grind

/-! ### The scratch and what is emitted -/

theorem push_ok {capacity : ℕ} {out out' : Bytes} {c : Byte} (h : push capacity out c = .ok out') :
    out' = out ++ [c] := by
  unfold push at h
  split at h <;> simp_all

theorem push_error {capacity : ℕ} {out : Bytes} {c : Byte} {r : Stop}
    (h : push capacity out c = .error r) : capacity ≤ out.length := by
  unfold push at h
  split at h
  · simp at h
  · omega

/-- A run has room in the scratch when the text that is left does. -/
theorem boundedRun_room {capacity e : ℕ} {cls : Byte → Bool} {out s : Bytes} {r : Stop}
    (hroom : out.length + s.length ≤ capacity) : boundedRun capacity cls e out s ≠ .error r := by
  intro h
  fun_induction boundedRun capacity cls e out s with
  | case1 => simp at h
  | case2 out c s _ r1 hp =>
    have := push_error hp
    simp only [List.length_cons] at hroom
    omega
  | case3 out c s _ out1 hp ih =>
    have hout := push_ok hp
    subst hout
    refine ih ?_ h
    simp only [List.length_append, List.length_cons, List.length_nil] at hroom ⊢
    omega
  | case4 => simp at h

theorem dotLoop_room {capacity e : ℕ} {cls : Byte → Bool} {out s : Bytes}
    (hroom : out.length + s.length ≤ capacity) :
    dotLoop capacity cls e out s ≠ .error .overrun := by
  intro h
  -- after a run and the spacing there is as much room as before
  have hkeep : ∀ {out run s t u : Bytes}, out.length + s.length ≤ capacity →
      boundedRun capacity cls e out s = .ok (run, t) → boundedCfws t = some u →
      run.length + u.length ≤ capacity := by
    intro out run s t u hroom hr hu
    obtain ⟨a, _, rfl, rfl⟩ := boundedRun_sound hr
    have := boundedCfws_length hu
    simp only [List.length_append] at hroom ⊢
    omega
  fun_induction dotLoop capacity cls e out s with
  | case1 out s r hr => exact boundedRun_room hroom hr
  | case2 => simp at h
  | case3 => simp at h
  | case4 => simp at h
  | case5 => simp at h
  | case6 => simp at h
  | case7 => simp at h
  | case8 out s run t hr _ c u hu _ _ r hp =>
    have := hkeep hroom hr hu
    have := push_error hp
    simp only [List.length_cons] at *
    omega
  | case9 => simp at h
  | case10 => simp at h
  | case11 out s run t hr _ c u hu _ _ run1 hp v hv _ ih =>
    have hle := hkeep hroom hr hu
    have hlen := boundedCfws_length hv
    have hout := push_ok hp
    subst hout
    refine ih ?_ h
    simp only [List.length_append, List.length_cons, List.length_nil] at hle ⊢
    omega

theorem specText_room {capacity e : ℕ} {s : Bytes} (hroom : s.length < capacity) :
    specText capacity e s ≠ .error .overrun := by
  intro h
  unfold specText at h
  split at h
  · simp at h
  · next s1 hs1 =>
    have hle := boundedCfws_length hs1
    split at h
    · simp at h
    · split at h
      · next r hl =>
        simp only [Except.error.injEq] at h
        subst h
        unfold localPart at hl
        split at hl
        · split at hl
          · simp at hl
          · split at hl
            · simp at hl
            · split at hl <;> simp at hl
        · exact dotLoop_room (by simp only [List.length_nil]; omega) hl
      · next l s2 hl =>
        obtain ⟨x, hx, rfl⟩ := localPart_sound (by omega) hl
        have hxl := hx.length_le
        simp only [List.length_append] at hle
        split at h
        · simp at h
        · next hat =>
          push Not at hat
          obtain ⟨u, rfl⟩ := head_eq_some hat.2
          simp only [List.length_cons] at hle
          split at h
          · next r hp =>
            have := push_error hp
            omega
          · next out hp =>
            have hout := push_ok hp
            subst hout
            split at h
            · next r hd =>
              simp only [Except.error.injEq] at h
              subst h
              unfold domainPart at hd
              split at hd
              · simp at hd
              · next v hv =>
                have hvl := boundedCfws_length hv
                simp only [List.tail_cons] at hvl
                split at hd
                · simp at hd
                · refine dotLoop_room ?_ hd
                  simp only [List.length_append, List.length_cons, List.length_nil]
                  omega
            · next out t hd =>
              obtain ⟨r, y, d, _, hy, hsplit, rfl⟩ := domainPart_sound hd
              have hyl := hy.length_le
              have hlen := congrArg List.length hsplit
              simp only [List.tail_cons, List.length_append] at hlen
              split at h
              · simp at h
              · split at h
                · simp at h
                · next hfull =>
                  simp only [List.length_append, List.length_cons, List.length_nil] at hfull
                  omega

/-- A mailbox that some addr-spec of the grammar names. -/
def Named (m : Bytes) : Prop := ∃ x, AddrSpec x m

/-- A step of the parser: every mailbox it gives to the emitter is named by an
addr-spec, a successful step gave only what the emitter takes, and the scratch
was large enough. -/
structure Sane {α : Type} (emit : Emit) (sent : List Bytes) (r : List Bytes × Except Stop α) :
    Prop where
  named : ∀ m ∈ r.1, m ∈ sent ∨ Named m
  taken : ∀ a, r.2 = .ok a → ∀ m ∈ r.1, m ∈ sent ∨ ∃ before, emit before m = true
  room : r.2 ≠ .error .overrun

section

variable {emit : Emit}

theorem Sane.stop {α : Type} {sent : List Bytes} {r : Stop} (h : r ≠ .overrun) :
    @Sane α emit sent (sent, .error r) :=
  ⟨fun _ hm => Or.inl hm, by simp, by simpa using h⟩

theorem Sane.refused {α : Type} {sent : List Bytes} :
    @Sane α emit sent (sent, .error .boundedSyntax) := .stop (by decide)

theorem Sane.done {α : Type} {sent : List Bytes} {a : α} : Sane emit sent (sent, .ok a) :=
  ⟨fun _ hm => Or.inl hm, fun _ _ _ hm => Or.inl hm, by simp⟩

/-- What follows a successful sane step is sane after it. -/
theorem Sane.trans {α β : Type} {sent sent1 : List Bytes} {a : α}
    {q : List Bytes × Except Stop β} (h : Sane emit sent (sent1, .ok a)) (hq : Sane emit sent1 q) :
    Sane emit sent q := by
  refine ⟨fun m hm => ?_, fun b hb m hm => ?_, hq.room⟩
  · rcases hq.named m hm with hm | hm
    · exact h.named m hm
    · exact Or.inr hm
  · rcases hq.taken b hb m hm with hm | hm
    · exact h.taken a rfl m hm
    · exact Or.inr hm

theorem boundedSpec_sane {capacity e : ℕ} {sent : List Bytes} {s : Bytes}
    (hroom : s.length < capacity) : Sane emit sent (boundedSpec capacity emit sent e s) := by
  unfold boundedSpec
  split
  · next r hr =>
    refine .stop ?_
    rintro rfl
    exact specText_room hroom hr
  · next m hm =>
    obtain ⟨x, _, hx, _, _⟩ := specText_sound hroom hm
    refine ⟨?_, ?_, ?_⟩
    · intro m1 hm1
      rcases List.mem_append.mp hm1 with h | h
      · exact Or.inl h
      · rw [List.mem_singleton.mp h]
        exact Or.inr ⟨x, hx⟩
    · intro a ha m1 hm1
      have hemit : emit sent m = true := by
        by_contra hne
        simp [hne] at ha
      rcases List.mem_append.mp hm1 with h | h
      · exact Or.inl h
      · rw [List.mem_singleton.mp h]
        exact Or.inr ⟨sent, hemit⟩
    · split <;> simp

/-- An error of a sane step is the error of the whole. -/
theorem Sane.fail {α β : Type} {sent sent1 : List Bytes} {r : Stop}
    (h : @Sane α emit sent (sent1, .error r)) : @Sane β emit sent (sent1, .error r) :=
  ⟨h.named, by simp, by simpa using h.room⟩

theorem boundedMailbox_sane {capacity : ℕ} {sent : List Bytes} {s : Bytes}
    (hroom : s.length < capacity) : Sane emit sent (boundedMailbox capacity emit sent s) := by
  have hangle : ∀ stop : Bytes, stop.length ≤ s.length →
      Sane emit sent (angleMailbox capacity emit sent s stop) := by
    intro stop hstop
    unfold angleMailbox
    split
    · exact .refused
    · split
      · exact .refused
      · split
        · exact .refused
        · split
          · exact .refused
          · next close _ _ =>
            have hspec : Sane emit sent (boundedSpec capacity emit sent close.length stop.tail) :=
              boundedSpec_sane (by simp only [List.length_tail]; omega)
            split
            · next h =>
              rw [h] at hspec
              exact hspec.fail
            · next h =>
              rw [h] at hspec
              split
              · exact hspec.trans .refused
              · split
                · exact hspec.trans .refused
                · exact hspec.trans .done
  unfold boundedMailbox
  split
  · exact .refused
  · next stop hstop =>
    split
    · exact .refused
    · split
      · exact hangle stop (boundedBoundary_length hstop)
      · have hspec : Sane emit sent (boundedSpec capacity emit sent stop.length s) :=
          boundedSpec_sane hroom
        split
        · next h =>
          rw [h] at hspec
          exact hspec.fail
        · next h =>
          rw [h] at hspec
          exact hspec.trans .done

theorem memberLoop_sane {capacity : ℕ} {sent : List Bytes} {s : Bytes}
    (hroom : s.length < capacity) : Sane emit sent (memberLoop capacity emit sent s) := by
  fun_induction memberLoop capacity emit sent s with
  | case1 sent s sent1 r h =>
    exact (h ▸ boundedMailbox_sane hroom : Sane emit sent (sent1, _)).fail
  | case2 sent s sent1 h =>
    exact (h ▸ boundedMailbox_sane hroom : Sane emit sent (sent1, _)).trans .refused
  | case3 sent s sent1 t h =>
    exact (h ▸ boundedMailbox_sane hroom : Sane emit sent (sent1, _)).trans .done
  | case4 sent s sent1 c t h =>
    exact (h ▸ boundedMailbox_sane hroom : Sane emit sent (sent1, _)).trans .refused
  | case5 sent s sent1 c t h =>
    exact (h ▸ boundedMailbox_sane hroom : Sane emit sent (sent1, _)).trans .refused
  | case6 sent s sent1 c t h =>
    exact (h ▸ boundedMailbox_sane hroom : Sane emit sent (sent1, _)).trans .refused
  | case7 sent s sent1 c t h _ _ u hu _ ih =>
    have hle := boundedMailbox_length h
    have hlen := boundedCfws_length hu
    simp only [List.length_cons] at hle
    exact (h ▸ boundedMailbox_sane hroom : Sane emit sent (sent1, _)).trans (ih (by omega))

theorem boundedItem_sane {capacity : ℕ} {sent : List Bytes} {s : Bytes}
    (hroom : s.length < capacity) : Sane emit sent (boundedItem capacity emit sent s) := by
  unfold boundedItem
  split
  · exact .refused
  · next stop hstop =>
    have hle := boundedBoundary_length hstop
    split
    · unfold boundedGroup
      split
      · exact .refused
      · split
        · exact .refused
        · next t ht =>
          have hlen := boundedCfws_length ht
          simp only [List.length_tail] at hlen
          have hmembers : Sane emit sent (if t.head? = some 59 then (sent, .ok t)
              else memberLoop capacity emit sent t) := by
            split
            · exact .done
            · exact memberLoop_sane (by omega)
          split
          · next h =>
            rw [h] at hmembers
            exact hmembers.fail
          · next h =>
            rw [h] at hmembers
            split
            · exact hmembers.trans .refused
            · exact hmembers.trans .done
    · exact boundedMailbox_sane hroom

theorem mailboxesLoop_sane {capacity : ℕ} {sent : List Bytes} {s : Bytes}
    (hroom : s.length < capacity) : Sane emit sent (mailboxesLoop capacity emit sent s) := by
  fun_induction mailboxesLoop capacity emit sent s with
  | case1 sent s sent1 r h =>
    exact (h ▸ boundedItem_sane hroom : Sane emit sent (sent1, _)).fail
  | case2 sent s sent1 h =>
    exact (h ▸ boundedItem_sane hroom : Sane emit sent (sent1, _)).trans .done
  | case3 sent s sent1 c t h =>
    exact (h ▸ boundedItem_sane hroom : Sane emit sent (sent1, _)).trans .refused
  | case4 sent s sent1 c t h =>
    exact (h ▸ boundedItem_sane hroom : Sane emit sent (sent1, _)).trans .refused
  | case5 sent s sent1 c t h =>
    exact (h ▸ boundedItem_sane hroom : Sane emit sent (sent1, _)).trans .refused
  | case6 sent s sent1 c t h _ u hu _ ih =>
    have hle := boundedItem_length h
    have hlen := boundedCfws_length hu
    simp only [List.length_cons] at hle
    exact (h ▸ boundedItem_sane hroom : Sane emit sent (sent1, _)).trans (ih (by omega))

theorem rfc822ParseMailboxes_sane (capacity : ℕ) (emit : Emit) (input : Bytes) :
    Sane emit [] (rfc822ParseMailboxes capacity emit input) := by
  unfold rfc822ParseMailboxes
  split
  · exact .stop (by decide)
  · split
    · exact .refused
    · split
      · exact .refused
      · next s hs =>
        have hlen := boundedCfws_length hs
        split
        · exact .refused
        · exact mailboxesLoop_sane (by omega)

end

/-- The loop is entered at the first token, or at the text itself. -/
theorem rfc822ParseMailboxes_loop {capacity : ℕ} {emit : Emit} {input : Bytes} (hnul : 0 ∉ input)
    (hroom : input.length < capacity) (h : Starts input) :
    rfc822ParseMailboxes capacity emit input = mailboxesLoop capacity emit [] input := by
  obtain ⟨c, v, hv, _⟩ := h []
  rw [List.append_nil] at hv
  rw [rfc822ParseMailboxes, if_neg (by omega), if_neg hnul, mailboxesLoop_cfws hv]
  simp only [hv, reduceCtorEq, if_false]

theorem rfc822ParseMailboxes_sound {capacity : ℕ} {emit : Emit} {input : Bytes} {ms : List Bytes}
    (hroom : input.length < capacity)
    (h : rfc822ParseMailboxes capacity emit input = (ms, .ok ())) : AddressList input ms := by
  rw [rfc822ParseMailboxes, if_neg (by omega)] at h
  split at h
  · simp at h
  · split at h
    · simp at h
    · next s hs =>
      obtain ⟨_, p, hp, rfl⟩ := cfws_sound hs
      split at h
      · simp at h
      · simp only [List.length_append] at hroom
        obtain ⟨ns, hns, heq⟩ := mailboxesLoop_sound (by omega) h
        rw [heq]
        exact hns.lead hp

/-- The parser returns success exactly on the lists of the grammar, with the
mailboxes in order, and stays within the scratch whatever the emitter does. -/
theorem rfc822ParseMailboxes_iff {capacity : ℕ} {input : Bytes} (hnul : 0 ∉ input)
    (hroom : input.length < capacity) :
    (∀ ms, rfc822ParseMailboxes capacity emitAll input = (ms, .ok ()) ↔ AddressList input ms) ∧
      ∀ emit, (rfc822ParseMailboxes capacity emit input).2 ≠ .error .overrun := by
  refine ⟨fun ms => ⟨rfc822ParseMailboxes_sound hroom, fun h => ?_⟩,
    fun emit => (rfc822ParseMailboxes_sane capacity emit input).room⟩
  rw [rfc822ParseMailboxes_loop hnul hroom h.starts]
  exact mailboxesLoop_complete h (fun _ _ _ => rfl) hroom

/-- A mailbox after a phrase. -/
theorem rfc822ParseMailboxes_sample :
    rfc822ParseMailboxes 16 emitAll (cstr "X <a@b>") = ([cstr "a@b"], .ok ()) := by
  have hrun : ∀ {cls : Byte → Bool} {c : Byte}, cls c = true → Run cls [c] := fun h =>
    ⟨by simp, by simpa using h⟩
  have hspec : AddrSpec [97, 64, 98] [97, 64, 98] := by
    simpa using AddrSpec.mk .nil (.atoms (.last (hrun (c := 97) (by decide)) .nil)) .nil
      (.last (hrun (c := 98) (by decide)) .nil)
  have hphrase : Phrase [88, 32] := by
    simpa using Phrase.last .nil (.run (hrun (c := 88) (by decide)))
      (.blank (c := 32) (by decide) .nil)
  have htext : cstr "X <a@b>" = [88, 32, 60, 97, 64, 98, 62] := by decide
  have hmail : cstr "a@b" = [97, 64, 98] := by decide
  have hlist : AddressList [88, 32, 60, 97, 64, 98, 62] [[97, 64, 98]] := by
    simpa using AddressList.last (.mailbox (.angle (Or.inr hphrase) hspec .nil))
  rw [htext, hmail]
  exact ((rfc822ParseMailboxes_iff (by decide) (by decide)).1 _).mpr hlist

end Rfc822

end JaroFilter
