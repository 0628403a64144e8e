import JaroFilter.Header.Rfc822

/-!
# The address grammar

What the bounded parser accepts, as a grammar of byte strings: comments and
quoted strings, the spacing between tokens, addr-specs, phrases, mailboxes,
groups and lists. Each reader of a span is sound, which follows its loop, and
complete, which moves it over a derived text one token at a time.
-/

namespace JaroFilter

open Lib

namespace Rfc822

/-! ### The grammar -/

/-- Text inside a comment: bytes, quoted pairs and nested comments. -/
inductive CommentText : Bytes → Prop
  | nil : CommentText []
  | plain {c : Byte} {t : Bytes} (h : c ≠ 40 ∧ c ≠ 41 ∧ c ≠ 92) :
      CommentText t → CommentText (c :: t)
  | pair {c : Byte} {t : Bytes} : CommentText t → CommentText (92 :: c :: t)
  | nested {b t : Bytes} : CommentText b → CommentText t → CommentText (40 :: b ++ 41 :: t)

/-- Text inside quotes: bytes and quoted pairs. -/
inductive QuotedText : Bytes → Prop
  | nil : QuotedText []
  | plain {c : Byte} {t : Bytes} (h : c ≠ 34 ∧ c ≠ 92) : QuotedText t → QuotedText (c :: t)
  | pair {c : Byte} {t : Bytes} : QuotedText t → QuotedText (92 :: c :: t)

def quoted (b : Bytes) : Bytes := 34 :: b ++ [34]

/-- Blanks and comments. -/
inductive Spaced : Bytes → Prop
  | nil : Spaced []
  | blank {c : Byte} {t : Bytes} (h : isBlank c = true) : Spaced t → Spaced (c :: t)
  | comment {b t : Bytes} : CommentText b → Spaced t → Spaced (40 :: b ++ 41 :: t)

/-- A nonempty run of bytes of one class. -/
structure Run (cls : Byte → Bool) (a : Bytes) : Prop where
  ne_nil : a ≠ []
  mem : ∀ c ∈ a, cls c = true

/-- Dot-separated runs, each followed by spacing, and the text without the spacing. -/
inductive Dotted (cls : Byte → Bool) : Bytes → Bytes → Prop
  | last {a q : Bytes} : Run cls a → Spaced q → Dotted cls (a ++ q) a
  | dot {a q p x m : Bytes} : Run cls a → Spaced q → Spaced p → Dotted cls x m →
      Dotted cls (a ++ (q ++ 46 :: (p ++ x))) (a ++ 46 :: m)

/-- A local part with the spacing after it, and the text without the spacing. -/
inductive LocalPart : Bytes → Bytes → Prop
  | atoms {x m : Bytes} : Dotted isAtext x m → LocalPart x m
  | quote {b q : Bytes} : QuotedText b → Spaced q → LocalPart (quoted b ++ q) (quoted b)

/-- An addr-spec and the mailbox it names. -/
inductive AddrSpec : Bytes → Bytes → Prop
  | mk {p x l r y d : Bytes} : Spaced p → LocalPart x l → Spaced r → Dotted isLdh y d →
      AddrSpec (p ++ (x ++ 64 :: (r ++ y))) (l ++ 64 :: d)

/-- A quoted string or a run of atom bytes and dots. -/
inductive Word : Bytes → Prop
  | quote {b : Bytes} : QuotedText b → Word (quoted b)
  | run {a : Bytes} : Run isPhraseByte a → Word a

/-- A nonempty sequence of words. -/
inductive Phrase : Bytes → Prop
  | last {p w q : Bytes} : Spaced p → Word w → Spaced q → Phrase (p ++ (w ++ q))
  | cons {p w x : Bytes} : Spaced p → Word w → Phrase x → Phrase (p ++ (w ++ x))

/-- A mailbox: an addr-spec, or an optional phrase before an angle addr-spec. -/
inductive Mailbox : Bytes → Bytes → Prop
  | spec {x m : Bytes} : AddrSpec x m → Mailbox x m
  | angle {n x m q : Bytes} : Spaced n ∨ Phrase n → AddrSpec x m → Spaced q →
      Mailbox (n ++ 60 :: (x ++ 62 :: q)) m

/-- Comma-separated mailboxes. -/
inductive Members : Bytes → List Bytes → Prop
  | last {x m : Bytes} : Mailbox x m → Members x [m]
  | cons {x m y : Bytes} {ms : List Bytes} : Mailbox x m → Members y ms →
      Members (x ++ 44 :: y) (m :: ms)

/-- A group: a phrase, a colon, members or none, and a semicolon. -/
inductive Group : Bytes → List Bytes → Prop
  | empty {n b q : Bytes} : Phrase n → Spaced b → Spaced q → Group (n ++ 58 :: (b ++ 59 :: q)) []
  | members {n y q : Bytes} {ms : List Bytes} : Phrase n → Members y ms → Spaced q →
      Group (n ++ 58 :: (y ++ 59 :: q)) ms

inductive Item : Bytes → List Bytes → Prop
  | mailbox {x m : Bytes} : Mailbox x m → Item x [m]
  | group {x : Bytes} {ms : List Bytes} : Group x ms → Item x ms

/-- Comma-separated mailboxes and groups, with the mailboxes in order. -/
inductive AddressList : Bytes → List Bytes → Prop
  | last {x : Bytes} {ms : List Bytes} : Item x ms → AddressList x ms
  | cons {x y : Bytes} {ms ns : List Bytes} : Item x ms → AddressList y ns →
      AddressList (x ++ 44 :: y) (ms ++ ns)

/-! ### Spacing before a token -/

theorem Spaced.append {p q : Bytes} (hp : Spaced p) (hq : Spaced q) : Spaced (p ++ q) := by
  induction hp with
  | nil => exact hq
  | blank h _ ih => exact ih.blank h
  | comment h _ ih => simpa using Spaced.comment h ih

theorem AddrSpec.lead {p x m : Bytes} (hp : Spaced p) (h : AddrSpec x m) : AddrSpec (p ++ x) m := by
  obtain ⟨hp', hx, hr, hy⟩ := h
  rw [← List.append_assoc]
  exact .mk (hp.append hp') hx hr hy

theorem Phrase.lead {p x : Bytes} (hp : Spaced p) (h : Phrase x) : Phrase (p ++ x) := by
  cases h with
  | last hp' hw hq =>
    rw [← List.append_assoc]
    exact .last (hp.append hp') hw hq
  | cons hp' hw hx =>
    rw [← List.append_assoc]
    exact .cons (hp.append hp') hw hx

theorem Mailbox.lead {p x m : Bytes} (hp : Spaced p) (h : Mailbox x m) : Mailbox (p ++ x) m := by
  cases h with
  | spec h => exact .spec (h.lead hp)
  | angle hn hx hq =>
    rw [← List.append_assoc]
    refine .angle ?_ hx hq
    exact hn.imp hp.append (Phrase.lead hp)

theorem Members.lead {p x : Bytes} {ms : List Bytes} (hp : Spaced p) (h : Members x ms) :
    Members (p ++ x) ms := by
  cases h with
  | last h => exact .last (h.lead hp)
  | cons h hy =>
    rw [← List.append_assoc]
    exact .cons (h.lead hp) hy

theorem Item.lead {p x : Bytes} {ms : List Bytes} (hp : Spaced p) (h : Item x ms) :
    Item (p ++ x) ms := by
  cases h with
  | mailbox h => exact .mailbox (h.lead hp)
  | group h =>
    refine .group ?_
    cases h with
    | empty hn hb hq =>
      rw [← List.append_assoc]
      exact .empty (hn.lead hp) hb hq
    | members hn hy hq =>
      rw [← List.append_assoc]
      exact .members (hn.lead hp) hy hq

theorem AddressList.lead {p x : Bytes} {ms : List Bytes} (hp : Spaced p) (h : AddressList x ms) :
    AddressList (p ++ x) ms := by
  cases h with
  | last h => exact .last (h.lead hp)
  | cons h hy =>
    rw [← List.append_assoc]
    exact .cons (h.lead hp) hy

/-! ### Comments -/

/-- Text that closes `level` open parentheses, up to the last one. -/
inductive Closes : ℕ → Bytes → Prop
  | zero : Closes 0 []
  | succ {level : ℕ} {b x : Bytes} : CommentText b → Closes level x →
      Closes (level + 1) (b ++ 41 :: x)

theorem Closes.plain {level : ℕ} {c : Byte} {x : Bytes} (hc : c ≠ 40 ∧ c ≠ 41 ∧ c ≠ 92)
    (h : Closes (level + 1) x) : Closes (level + 1) (c :: x) := by
  cases h with
  | succ hb hx => exact .succ (hb.plain hc) hx

theorem Closes.pair {level : ℕ} {c : Byte} {x : Bytes} (h : Closes (level + 1) x) :
    Closes (level + 1) (92 :: c :: x) := by
  cases h with
  | succ hb hx => exact .succ hb.pair hx

theorem Closes.paren {level : ℕ} {x : Bytes} (h : Closes (level + 2) x) :
    Closes (level + 1) (40 :: x) := by
  cases h with
  | succ hb hx =>
    cases hx with
    | succ hb' hx => simpa using Closes.succ (hb.nested hb') hx

theorem parseComment_cons {max level : ℕ} {comment s : Bytes} {c : Byte} :
    parseComment max (level + 1) comment (c :: s) =
      if c = 40 then parseComment max (level + 2) (store max comment c) s
      else if c = 41 then
        if level = 0 then some (comment, s)
        else parseComment max level (store max comment c) s
      else if c = 92 then
        match s with
        | [] => none
        | d :: s => parseComment max (level + 1) (store max comment d) s
      else parseComment max (level + 1) (store max comment c) s := by
  rw [parseComment.eq_def]
  cases s <;> simp

theorem parseComment_sound {max level : ℕ} {comment comment' s t : Bytes}
    (h : parseComment max level comment s = some (comment', t)) :
    ∃ x, s = x ++ t ∧ Closes level x := by
  fun_induction parseComment max level comment s with
  | case1 => exact ⟨[], by simp_all, .zero⟩
  | case2 => simp at h
  | case3 => exact ⟨[], by simp_all, .zero⟩
  | case4 level comment s hl ih =>
    obtain ⟨x, rfl, hx⟩ := ih h
    obtain ⟨n, rfl⟩ := Nat.exists_eq_succ_of_ne_zero hl
    exact ⟨40 :: x, by simp, hx.paren⟩
  | case5 comment s =>
    simp only [Option.some.injEq, Prod.mk.injEq] at h
    exact ⟨[41], by simp [h.2], .succ (b := []) .nil .zero⟩
  | case6 level comment s hl _ h1 ih =>
    obtain ⟨x, rfl, hx⟩ := ih h
    obtain ⟨n, rfl⟩ := Nat.exists_eq_succ_of_ne_zero hl
    exact ⟨41 :: x, by simp, .succ (b := []) .nil hx⟩
  | case7 => simp at h
  | case8 level comment hl d s _ _ ih =>
    obtain ⟨x, rfl, hx⟩ := ih h
    obtain ⟨n, rfl⟩ := Nat.exists_eq_succ_of_ne_zero hl
    exact ⟨92 :: d :: x, by simp, hx.pair⟩
  | case9 level comment c s hl h40 h41 h92 ih =>
    obtain ⟨x, rfl, hx⟩ := ih h
    obtain ⟨n, rfl⟩ := Nat.exists_eq_succ_of_ne_zero hl
    exact ⟨c :: x, by simp, hx.plain ⟨h40, h41, h92⟩⟩

/-- Comment text leaves the level as it is. -/
theorem parseComment_text {b : Bytes} (hb : CommentText b) (max level : ℕ) (comment s : Bytes) :
    ∃ comment', parseComment max (level + 1) comment (b ++ s) =
      parseComment max (level + 1) comment' s := by
  induction hb generalizing level comment s with
  | nil => exact ⟨comment, rfl⟩
  | @plain c t hc _ ih =>
    obtain ⟨h40, h41, h92⟩ := hc
    obtain ⟨comment', h⟩ := ih level (store max comment c) s
    refine ⟨comment', ?_⟩
    rw [← h, List.cons_append, parseComment_cons, if_neg h40, if_neg h41, if_neg h92]
  | @pair c t _ ih =>
    obtain ⟨comment', h⟩ := ih level (store max comment c) s
    refine ⟨comment', ?_⟩
    rw [← h]
    simp [parseComment_cons]
  | @nested b t _ _ ihb iht =>
    obtain ⟨comment1, h1⟩ := ihb (level + 1) (store max comment 40) (41 :: (t ++ s))
    obtain ⟨comment2, h2⟩ := iht level (store max comment1 41) s
    refine ⟨comment2, ?_⟩
    calc parseComment max (level + 1) comment (40 :: b ++ 41 :: t ++ s)
        = parseComment max (level + 2) (store max comment 40) (b ++ 41 :: (t ++ s)) := by
          simp [parseComment_cons]
      _ = parseComment max (level + 2) comment1 (41 :: (t ++ s)) := h1
      _ = parseComment max (level + 1) (store max comment1 41) (t ++ s) := by
          simp [parseComment_cons]
      _ = parseComment max (level + 1) comment2 s := h2

theorem parseComment_closed {b : Bytes} (hb : CommentText b) (max : ℕ) (comment s : Bytes) :
    ∃ comment', parseComment max 1 comment (b ++ 41 :: s) = some (comment', s) := by
  obtain ⟨comment', h⟩ := parseComment_text hb max 0 comment (41 :: s)
  refine ⟨comment', ?_⟩
  rw [h]
  simp [parseComment_cons]

/-! ### Spacing -/

/-- The next byte starts neither a blank nor a comment. -/
def Fresh (s : Bytes) : Prop := ∀ c t, s = c :: t → isBlank c = false ∧ c ≠ 40

theorem fresh_nil : Fresh [] := by simp [Fresh]

theorem fresh_cons {c : Byte} {t : Bytes} : Fresh (c :: t) ↔ isBlank c = false ∧ c ≠ 40 := by
  constructor
  · exact fun h => h c t rfl
  · rintro h d u heq
    obtain ⟨rfl, rfl⟩ := List.cons.inj heq
    exact h

theorem cfws_fresh {s : Bytes} (h : Fresh s) : boundedCfws s = some s := by
  cases s with
  | nil => rw [boundedCfws]
  | cons c s =>
    obtain ⟨hb, h40⟩ := fresh_cons.mp h
    rw [boundedCfws, if_neg (by simp [hb]), if_neg h40]

/-- Spacing before a token does not change what is read after it. -/
theorem cfws_spaced {p : Bytes} (hp : Spaced p) (s : Bytes) :
    boundedCfws (p ++ s) = boundedCfws s := by
  induction hp with
  | nil => rfl
  | blank h _ ih => rw [List.cons_append, boundedCfws, if_pos h, ih]
  | @comment b t hb _ ih =>
    obtain ⟨comment', hc⟩ := parseComment_closed hb 0 [] (t ++ s)
    have hsplit : 40 :: b ++ 41 :: t ++ s = 40 :: (b ++ 41 :: (t ++ s)) := by simp
    rw [hsplit, boundedCfws, if_neg (by decide), if_pos rfl]
    split
    · next h => simp [hc] at h
    · next u h =>
      rw [hc] at h
      simp only [Option.some.injEq, Prod.mk.injEq] at h
      rw [← h.2, ih]

theorem cfws_sound {s t : Bytes} (h : boundedCfws s = some t) :
    Fresh t ∧ ∃ p, Spaced p ∧ s = p ++ t := by
  fun_induction boundedCfws s with
  | case1 =>
    simp only [Option.some.injEq] at h
    exact h ▸ ⟨fresh_nil, [], .nil, rfl⟩
  | case2 c s hb ih =>
    obtain ⟨hf, p, hp, rfl⟩ := ih h
    exact ⟨hf, c :: p, hp.blank hb, rfl⟩
  | case3 => simp at h
  | case4 s comment u hc _ ih =>
    obtain ⟨hf, p, hp, rfl⟩ := ih h
    obtain ⟨x, rfl, hx⟩ := parseComment_sound hc
    cases hx with
    | succ hb hz =>
      cases hz
      exact ⟨hf, _, hp.comment hb, by simp⟩
  | case5 c s hb h40 =>
    simp only [Option.some.injEq] at h
    subst h
    exact ⟨fresh_cons.mpr ⟨by simpa using hb, h40⟩, [], .nil, rfl⟩

theorem cfws_idem {s t : Bytes} (h : boundedCfws s = some t) : boundedCfws t = some t :=
  cfws_fresh (cfws_sound h).1

/-! ### Quoted strings -/

/-- The stores of a text, byte by byte. -/
def storeAll (max : ℕ) (token b : Bytes) : Bytes := b.foldl (store max) token

theorem storeAll_of_room {max : ℕ} {token b : Bytes} (h : token.length + b.length ≤ max) :
    storeAll max token b = token ++ b := by
  induction b generalizing token with
  | nil => simp [storeAll]
  | cons c b ih =>
    have hlt : token.length < max := by
      simp only [List.length_cons] at h
      omega
    have hstore : store max token c = token ++ [c] := if_pos hlt
    have hnext : storeAll max (token ++ [c]) b = token ++ [c] ++ b := by
      refine ih ?_
      simp only [List.length_append, List.length_cons, List.length_nil] at h ⊢
      omega
    calc storeAll max token (c :: b) = storeAll max (store max token c) b := rfl
      _ = token ++ c :: b := by rw [hstore, hnext, List.append_assoc, List.singleton_append]

theorem quotedLoop_sound {max : ℕ} {token token' s t : Bytes}
    (h : quotedLoop max token s = some (token', t)) :
    ∃ b, QuotedText b ∧ s = b ++ 34 :: t ∧ token' = storeAll max token (b ++ [34]) := by
  fun_induction quotedLoop max token s with
  | case1 => simp at h
  | case2 token s =>
    simp only [Option.some.injEq, Prod.mk.injEq] at h
    exact ⟨[], .nil, by simp [h.2], by simp [storeAll, h.1]⟩
  | case3 => simp at h
  | case4 token d s _ ih =>
    obtain ⟨b, hb, rfl, rfl⟩ := ih h
    exact ⟨92 :: d :: b, hb.pair, by simp, by simp [storeAll]⟩
  | case5 token c s h34 h92 ih =>
    obtain ⟨b, hb, rfl, rfl⟩ := ih h
    exact ⟨c :: b, hb.plain ⟨h34, h92⟩, by simp, by simp [storeAll]⟩

theorem quotedLoop_complete {b : Bytes} (hb : QuotedText b) (max : ℕ) (token t : Bytes) :
    quotedLoop max token (b ++ 34 :: t) = some (storeAll max token (b ++ [34]), t) := by
  induction hb generalizing token with
  | nil => cases t <;> simp [quotedLoop, storeAll]
  | @plain c b hc _ ih =>
    have hstep : quotedLoop max token (c :: (b ++ 34 :: t)) =
        quotedLoop max (store max token c) (b ++ 34 :: t) := by
      rw [quotedLoop.eq_def]
      simp [hc]
    rw [List.cons_append, hstep, ih]
    simp [storeAll]
  | @pair c b _ ih =>
    rw [List.cons_append, List.cons_append]
    simp [quotedLoop, ih, storeAll]

theorem parseQuote_sound {max : ℕ} {token token' s t : Bytes}
    (h : parseQuote max token s = some (token', t)) :
    ∃ b, QuotedText b ∧ 34 :: s = quoted b ++ t ∧ token' = storeAll max token (quoted b) := by
  obtain ⟨b, hb, rfl, rfl⟩ := quotedLoop_sound h
  exact ⟨b, hb, by simp [quoted], by simp [quoted, storeAll]⟩

theorem parseQuote_complete {b : Bytes} (hb : QuotedText b) (max : ℕ) (token t : Bytes) :
    parseQuote max token (b ++ 34 :: t) = some (storeAll max token (quoted b), t) := by
  rw [parseQuote, quotedLoop_complete hb]
  simp [quoted, storeAll]

/-! ### Boundaries -/

/-- Where a boundary stops: at the end or at a stop byte. -/
def AtStop (s : Bytes) : Prop := ∀ c t, s = c :: t → isStop c = true

theorem atStop_nil : AtStop [] := by simp [AtStop]

theorem atStop_cons {c : Byte} {t : Bytes} : AtStop (c :: t) ↔ isStop c = true := by
  constructor
  · exact fun h => h c t rfl
  · rintro h d u heq
    obtain ⟨rfl, rfl⟩ := List.cons.inj heq
    exact h

theorem boundary_atStop {capacity : ℕ} {s : Bytes} (h : AtStop s) :
    boundedBoundary capacity s = some s := by
  cases s with
  | nil => rw [boundedBoundary]
  | cons c s => rw [boundedBoundary, if_pos (atStop_cons.mp h)]

theorem boundary_sound {capacity : ℕ} {s t : Bytes} (h : boundedBoundary capacity s = some t) :
    AtStop t ∧ ∃ x, s = x ++ t := by
  fun_induction boundedBoundary capacity s with
  | case1 =>
    simp only [Option.some.injEq] at h
    exact h ▸ ⟨atStop_nil, [], rfl⟩
  | case2 c s hc =>
    simp only [Option.some.injEq] at h
    exact h ▸ ⟨atStop_cons.mpr hc, [], rfl⟩
  | case3 => simp at h
  | case4 s u hc _ ih =>
    obtain ⟨hstop, x, rfl⟩ := ih h
    obtain ⟨_, p, _, heq⟩ := cfws_sound hc
    exact ⟨hstop, p ++ x, by simp [heq]⟩
  | case5 => simp at h
  | case6 s token u hc _ _ ih =>
    obtain ⟨hstop, x, rfl⟩ := ih h
    obtain ⟨b, _, heq, _⟩ := parseQuote_sound hc
    exact ⟨hstop, quoted b ++ x, by simp [heq]⟩
  | case7 c s _ _ _ ih =>
    obtain ⟨hstop, x, rfl⟩ := ih h
    exact ⟨hstop, c :: x, rfl⟩

theorem boundary_plain {capacity : ℕ} {c : Byte} {s : Bytes}
    (h : isStop c = false ∧ c ≠ 40 ∧ c ≠ 34) :
    boundedBoundary capacity (c :: s) = boundedBoundary capacity s := by
  rw [boundedBoundary, if_neg (by simp [h.1]), if_neg h.2.1, if_neg h.2.2]

theorem boundary_quoted {capacity : ℕ} {b : Bytes} (hb : QuotedText b) (s : Bytes) :
    boundedBoundary capacity (quoted b ++ s) = boundedBoundary capacity s := by
  have hsplit : quoted b ++ s = 34 :: (b ++ 34 :: s) := by simp [quoted]
  rw [hsplit, boundedBoundary, if_neg (by decide), if_neg (by decide), if_pos rfl]
  split
  · next h => simp [parseQuote_complete hb] at h
  · next u h =>
    rw [parseQuote_complete hb] at h
    simp only [Option.some.injEq, Prod.mk.injEq] at h
    rw [h.2]

/-- A boundary reads spacing as the other routines do. -/
theorem boundary_cfws (capacity : ℕ) (s : Bytes) :
    boundedBoundary capacity s = (boundedCfws s).bind (boundedBoundary capacity) := by
  fun_induction boundedCfws s with
  | case1 => rfl
  | case2 c s hb ih =>
    have hc : isStop c = false ∧ c ≠ 40 ∧ c ≠ 34 := by
      simp only [isBlank, Bool.or_eq_true, beq_iff_eq] at hb
      rcases hb with rfl | rfl <;> decide
    rw [boundary_plain hc, ih]
  | case3 s hc =>
    have hcfws : boundedCfws (40 :: s) = none := by
      rw [boundedCfws, if_neg (by decide), if_pos rfl]
      split <;> simp_all
    rw [boundedBoundary, if_neg (by decide), if_pos rfl]
    split <;> simp_all
  | case4 s comment u hc _ ih =>
    have hcfws : boundedCfws (40 :: s) = boundedCfws u := by
      rw [boundedCfws, if_neg (by decide), if_pos rfl]
      split <;> simp_all
    rw [boundedBoundary, if_neg (by decide), if_pos rfl]
    split
    · next hn => rw [← hcfws, hn, Option.bind_none]
    · next v hv => rw [← hcfws, hv, Option.bind_some]
  | case5 => rfl

theorem boundary_spaced {capacity : ℕ} {p : Bytes} (hp : Spaced p) (s : Bytes) :
    boundedBoundary capacity (p ++ s) = boundedBoundary capacity s := by
  rw [boundary_cfws, cfws_spaced hp, ← boundary_cfws]

/-! ### Runs -/

/-- A class of token bytes: none of them stops a span or begins another token. -/
structure TokenClass (cls : Byte → Bool) : Prop where
  clear : ∀ c, cls c = true → isStop c = false ∧ c ≠ 40 ∧ c ≠ 34
  fresh : ∀ c, cls c = true → isBlank c = false

theorem tokenClass_atext : TokenClass isAtext := by
  have h : ∀ c : Byte, isAtext c = true →
      (isStop c = false ∧ c ≠ 40 ∧ c ≠ 34) ∧ isBlank c = false := by decide +kernel
  exact ⟨fun c hc => (h c hc).1, fun c hc => (h c hc).2⟩

theorem tokenClass_ldh : TokenClass isLdh := by
  have h : ∀ c : Byte, isLdh c = true →
      (isStop c = false ∧ c ≠ 40 ∧ c ≠ 34) ∧ isBlank c = false := by decide +kernel
  exact ⟨fun c hc => (h c hc).1, fun c hc => (h c hc).2⟩

theorem tokenClass_phrase : TokenClass isPhraseByte := by
  have h : ∀ c : Byte, isPhraseByte c = true →
      (isStop c = false ∧ c ≠ 40 ∧ c ≠ 34) ∧ isBlank c = false := by decide +kernel
  exact ⟨fun c hc => (h c hc).1, fun c hc => (h c hc).2⟩

theorem Run.fresh {cls : Byte → Bool} (hcls : TokenClass cls) {a : Bytes} (h : Run cls a)
    (s : Bytes) : Fresh (a ++ s) := by
  obtain ⟨hne, hmem⟩ := h
  cases a with
  | nil => exact absurd rfl hne
  | cons c a =>
    have hc := hmem c (by simp)
    exact fresh_cons.mpr ⟨hcls.fresh c hc, (hcls.clear c hc).2.1⟩

theorem boundary_class {capacity : ℕ} {cls : Byte → Bool} (hcls : TokenClass cls) {a : Bytes}
    (h : ∀ c ∈ a, cls c = true) (s : Bytes) :
    boundedBoundary capacity (a ++ s) = boundedBoundary capacity s := by
  induction a with
  | nil => rfl
  | cons c a ih =>
    rw [List.cons_append, boundary_plain (hcls.clear c (h c (by simp))),
      ih fun d hd => h d (List.mem_cons_of_mem _ hd)]

/-- Where a run of a class stops: at the end of the span or at a byte outside the class. -/
def Halts (cls : Byte → Bool) (e : ℕ) (s : Bytes) : Prop :=
  s.length = e ∨ ∀ c t, s = c :: t → cls c = false

/-- Spacing halts a run of token bytes. -/
theorem Halts.spaced {cls : Byte → Bool} (hcls : TokenClass cls) {e : ℕ} {q s : Bytes}
    (hq : Spaced q) (h : Halts cls e s) : Halts cls e (q ++ s) := by
  cases hq with
  | nil => exact h
  | @blank c t hb _ =>
    right
    intro d u heq
    obtain ⟨rfl, _⟩ := List.cons.inj heq
    cases hd : cls c with
    | false => rfl
    | true => exact absurd (hcls.fresh c hd) (by simp [hb])
  | @comment b t _ _ =>
    right
    intro d u heq
    have hd : d = 40 := by simpa using (congrArg List.head? heq).symm
    subst hd
    cases hd : cls 40 with
    | false => rfl
    | true => exact absurd rfl (hcls.clear 40 hd).2.1

theorem boundedRun_sound {capacity e : ℕ} {cls : Byte → Bool} {out out' s t : Bytes}
    (h : boundedRun capacity cls e out s = .ok (out', t)) :
    ∃ a, (∀ c ∈ a, cls c = true) ∧ s = a ++ t ∧ out' = out ++ a := by
  fun_induction boundedRun capacity cls e out s with
  | case1 out =>
    simp only [Except.ok.injEq, Prod.mk.injEq] at h
    exact ⟨[], by simp, by simp [h.2], by simp [h.1]⟩
  | case2 => simp at h
  | case3 out c s hc out1 hp ih =>
    obtain ⟨a, ha, rfl, rfl⟩ := ih h
    have hout : out1 = out ++ [c] := by
      unfold push at hp
      split at hp <;> simp_all
    refine ⟨c :: a, ?_, rfl, by simp [hout]⟩
    intro d hd
    rcases List.mem_cons.mp hd with rfl | hd
    · exact hc.2
    · exact ha d hd
  | case4 out c s =>
    simp only [Except.ok.injEq, Prod.mk.injEq] at h
    exact ⟨[], by simp, by simp [h.2], by simp [h.1]⟩

theorem boundedRun_complete {capacity e : ℕ} {cls : Byte → Bool} {out a s : Bytes}
    (ha : ∀ c ∈ a, cls c = true) (hs : Halts cls e s) (he : e ≤ s.length)
    (hroom : out.length + a.length ≤ capacity) :
    boundedRun capacity cls e out (a ++ s) = .ok (out ++ a, s) := by
  induction a generalizing out with
  | nil =>
    cases s with
    | nil => simp [boundedRun]
    | cons c s =>
      have hstop : ¬ (e < s.length + 1 ∧ cls c = true) := by
        rintro ⟨hlt, hc⟩
        rcases hs with heq | hcls
        · simp only [List.length_cons] at heq
          omega
        · simp [hcls c s rfl] at hc
      rw [List.nil_append, boundedRun, if_neg hstop, List.append_nil]
  | cons c a ih =>
    have hlt : e < (a ++ s).length + 1 := by
      simp only [List.length_append]
      omega
    have hpush : push capacity out c = .ok (out ++ [c]) := by
      simp only [List.length_cons] at hroom
      exact if_pos (by omega)
    have hnext : boundedRun capacity cls e (out ++ [c]) (a ++ s) = .ok (out ++ [c] ++ a, s) := by
      refine ih (fun d hd => ha d (List.mem_cons_of_mem _ hd)) ?_
      simp only [List.length_append, List.length_cons, List.length_nil] at hroom ⊢
      omega
    rw [List.cons_append, boundedRun, if_pos ⟨hlt, ha c (by simp)⟩, hpush]
    simpa using hnext

/-! ### Dotted runs -/

theorem Dotted.length_le {cls : Byte → Bool} {x m : Bytes} (h : Dotted cls x m) :
    m.length ≤ x.length := by
  induction h with
  | last _ _ => simp
  | dot _ _ _ _ ih =>
    simp only [List.length_append, List.length_cons]
    omega

theorem Dotted.fresh {cls : Byte → Bool} (hcls : TokenClass cls) {x m : Bytes}
    (h : Dotted cls x m) (s : Bytes) : Fresh (x ++ s) := by
  cases h with
  | last ha _ =>
    rw [List.append_assoc]
    exact ha.fresh hcls _
  | dot ha _ _ _ =>
    rw [List.append_assoc]
    exact ha.fresh hcls _

theorem Dotted.length_pos {cls : Byte → Bool} {x m : Bytes} (h : Dotted cls x m) :
    0 < x.length := by
  have hrun : ∀ {a : Bytes}, Run cls a → 0 < a.length := fun ha =>
    List.length_pos_iff.mpr ha.ne_nil
  cases h with
  | last ha _ =>
    have := hrun ha
    simp only [List.length_append]
    omega
  | dot ha _ _ _ =>
    have := hrun ha
    simp only [List.length_append]
    omega

theorem boundary_dotted {capacity : ℕ} {cls : Byte → Bool} (hcls : TokenClass cls) {x m : Bytes}
    (h : Dotted cls x m) (s : Bytes) :
    boundedBoundary capacity (x ++ s) = boundedBoundary capacity s := by
  induction h with
  | @last a q ha hq => rw [List.append_assoc, boundary_class hcls ha.mem, boundary_spaced hq]
  | @dot a q p x m ha hq hp _ ih =>
    have hsplit : a ++ (q ++ 46 :: (p ++ x)) ++ s = a ++ (q ++ 46 :: (p ++ (x ++ s))) := by simp
    rw [hsplit, boundary_class hcls ha.mem, boundary_spaced hq, boundary_plain (by decide),
      boundary_spaced hp, ih]

theorem dotLoop_sound {capacity e : ℕ} {cls : Byte → Bool} {out out' s t : Bytes}
    (h : dotLoop capacity cls e out s = .ok (out', t)) :
    e ≤ t.length ∧ ∃ x m, Dotted cls x m ∧ s = x ++ t ∧ out' = out ++ m := by
  have hrun : ∀ {out run s t : Bytes}, boundedRun capacity cls e out s = .ok (run, t) →
      ¬ run.length = out.length → ∃ a, Run cls a ∧ s = a ++ t ∧ run = out ++ a := by
    intro out run s t hr hne
    obtain ⟨a, ha, hs, rfl⟩ := boundedRun_sound hr
    refine ⟨a, ⟨?_, ha⟩, hs, rfl⟩
    rintro rfl
    exact hne (by simp)
  fun_induction dotLoop capacity cls e out s with
  | case1 => simp at h
  | case2 => simp at h
  | case3 => simp at h
  | case4 => simp at h
  | case5 out s run t1 hr hne hu he =>
    obtain ⟨a, ha, rfl, rfl⟩ := hrun hr hne
    obtain ⟨_, q, hq, rfl⟩ := cfws_sound hu
    simp only [Except.ok.injEq, Prod.mk.injEq] at h
    obtain ⟨rfl, rfl⟩ := h
    exact ⟨by omega, a ++ q, a, .last ha hq, by simp, rfl⟩
  | case6 => simp at h
  | case7 out s run t1 hr hne c u hu he _ =>
    obtain ⟨a, ha, rfl, rfl⟩ := hrun hr hne
    obtain ⟨_, q, hq, rfl⟩ := cfws_sound hu
    simp only [Except.ok.injEq, Prod.mk.injEq] at h
    obtain ⟨rfl, rfl⟩ := h
    simp only [List.length_cons]
    exact ⟨by omega, a ++ q, a, .last ha hq, by simp, rfl⟩
  | case8 => simp at h
  | case9 => simp at h
  | case10 => simp at h
  | case11 out s run t1 hr hne c u hu _ hc next hp v hv _ ih =>
    obtain ⟨a, ha, rfl, rfl⟩ := hrun hr hne
    obtain ⟨_, q, hq, rfl⟩ := cfws_sound hu
    obtain ⟨_, p, hps, rfl⟩ := cfws_sound hv
    obtain ⟨he, x, m, hx, rfl, rfl⟩ := ih h
    have hdot : c = 46 := by
      push Not at hc
      exact hc.2
    subst hdot
    have hnext : next = out ++ a ++ [46] := by
      unfold push at hp
      split at hp <;> simp_all
    exact ⟨he, _, _, .dot ha hq hps hx, by simp, by simp [hnext]⟩

/-- The loop ends after a run that no dot follows. -/
theorem dotLoop_last {capacity e : ℕ} {cls : Byte → Bool} {out run s t u : Bytes}
    (hr : boundedRun capacity cls e out s = .ok (run, t)) (hne : run.length ≠ out.length)
    (hu : boundedCfws t = some u) (he : e ≤ u.length)
    (hdot : u.length = e ∨ u.head? ≠ some 46) : dotLoop capacity cls e out s = .ok (run, u) := by
  fun_cases dotLoop capacity cls e out s <;> simp_all
  omega

/-- The loop goes on after a dot. -/
theorem dotLoop_dot {capacity e : ℕ} {cls : Byte → Bool} {out run s t u v : Bytes}
    (hr : boundedRun capacity cls e out s = .ok (run, t)) (hne : run.length ≠ out.length)
    (hu : boundedCfws t = some (46 :: u)) (he : e ≤ u.length) (hroom : run.length < capacity)
    (hv : boundedCfws u = some v) (hlt : e < v.length) :
    dotLoop capacity cls e out s = dotLoop capacity cls e (run ++ [46]) v := by
  have hpush : push capacity run 46 = .ok (run ++ [46]) := if_pos hroom
  fun_cases dotLoop capacity cls e out s <;> simp_all <;> omega

theorem dotLoop_complete {capacity e : ℕ} {cls : Byte → Bool} (hcls : TokenClass cls)
    (h46 : cls 46 = false) {x m : Bytes} (h : Dotted cls x m) {out t : Bytes} (hfresh : Fresh t)
    (hhalt : Halts cls e t) (hdot : t.length = e ∨ t.head? ≠ some 46) (he : e ≤ t.length)
    (hroom : out.length + m.length ≤ capacity) :
    dotLoop capacity cls e out (x ++ t) = .ok (out ++ m, t) := by
  have hgrow : ∀ {out a : Bytes}, Run cls a → (out ++ a).length ≠ out.length := by
    intro out a ha
    have := List.length_pos_iff.mpr ha.ne_nil
    simp only [List.length_append]
    omega
  induction h generalizing out with
  | @last a q ha hq =>
    have hrun : boundedRun capacity cls e out (a ++ (q ++ t)) = .ok (out ++ a, q ++ t) := by
      refine boundedRun_complete ha.mem (hhalt.spaced hcls hq) ?_ hroom
      simp only [List.length_append]
      omega
    rw [List.append_assoc]
    exact dotLoop_last hrun (hgrow ha) (by rw [cfws_spaced hq, cfws_fresh hfresh]) he hdot
  | @dot a q p x m ha hq hp hx ih =>
    have hpos := hx.length_pos
    simp only [List.length_append, List.length_cons] at hroom
    have hhalt46 : Halts cls e (46 :: (p ++ (x ++ t))) := by
      right
      intro c u heq
      obtain ⟨rfl, _⟩ := List.cons.inj heq
      exact h46
    have hrun : boundedRun capacity cls e out (a ++ (q ++ 46 :: (p ++ (x ++ t)))) =
        .ok (out ++ a, q ++ 46 :: (p ++ (x ++ t))) := by
      refine boundedRun_complete ha.mem (hhalt46.spaced hcls hq) ?_ (by omega)
      simp only [List.length_append, List.length_cons]
      omega
    have hu : boundedCfws (q ++ 46 :: (p ++ (x ++ t))) = some (46 :: (p ++ (x ++ t))) := by
      rw [cfws_spaced hq, cfws_fresh (fresh_cons.mpr (by decide))]
    have hv : boundedCfws (p ++ (x ++ t)) = some (x ++ t) := by
      rw [cfws_spaced hp, cfws_fresh (hx.fresh hcls t)]
    have hsplit : a ++ (q ++ 46 :: (p ++ x)) ++ t = a ++ (q ++ 46 :: (p ++ (x ++ t))) := by simp
    have hnext : dotLoop capacity cls e (out ++ a ++ [46]) (x ++ t) =
        .ok (out ++ a ++ [46] ++ m, t) :=
      ih (by simp only [List.length_append, List.length_cons, List.length_nil]; omega)
    rw [hsplit, dotLoop_dot hrun (hgrow ha) hu (by simp only [List.length_append]; omega)
      (by simp only [List.length_append]; omega) hv (by simp only [List.length_append]; omega),
      hnext]
    simp

/-! ### Addr-specs -/

theorem LocalPart.length_le {x m : Bytes} (h : LocalPart x m) : m.length ≤ x.length := by
  cases h with
  | atoms h => exact h.length_le
  | quote _ _ => simp

theorem LocalPart.fresh {x m : Bytes} (h : LocalPart x m) (s : Bytes) : Fresh (x ++ s) := by
  cases h with
  | atoms h => exact h.fresh tokenClass_atext s
  | quote _ _ => exact fresh_cons.mpr (by decide)

theorem LocalPart.length_pos {x m : Bytes} (h : LocalPart x m) : 0 < x.length := by
  cases h with
  | atoms h => exact h.length_pos
  | quote _ _ => simp [quoted]

theorem AddrSpec.length_le {x m : Bytes} (h : AddrSpec x m) : m.length ≤ x.length := by
  obtain ⟨_, hx, _, hy⟩ := h
  have := hx.length_le
  have := hy.length_le
  simp only [List.length_append, List.length_cons]
  omega

theorem boundary_addrSpec {capacity : ℕ} {x m : Bytes} (h : AddrSpec x m) (s : Bytes) :
    boundedBoundary capacity (x ++ s) = boundedBoundary capacity s := by
  have hlocal : ∀ {x l : Bytes}, LocalPart x l → ∀ s,
      boundedBoundary capacity (x ++ s) = boundedBoundary capacity s := by
    intro x l hx s
    cases hx with
    | atoms h => exact boundary_dotted tokenClass_atext h s
    | quote hb hq => rw [List.append_assoc, boundary_quoted hb, boundary_spaced hq]
  obtain ⟨hp, hx, hr, hy⟩ := h
  simp only [List.append_assoc, List.cons_append]
  rw [boundary_spaced hp, hlocal hx, boundary_plain (by decide), boundary_spaced hr,
    boundary_dotted tokenClass_ldh hy]

theorem localPart_sound {capacity e : ℕ} {s out t : Bytes} (hroom : s.length < capacity)
    (h : localPart capacity e s = .ok (out, t)) : ∃ x, LocalPart x out ∧ s = x ++ t := by
  unfold localPart at h
  split at h
  · next hhead =>
    split at h
    · simp at h
    · next token u hq =>
      obtain ⟨b, hb, heq, htoken⟩ := parseQuote_sound hq
      split at h
      · simp at h
      · split at h
        · simp at h
        · next v hv =>
          obtain ⟨_, q, hqs, rfl⟩ := cfws_sound hv
          simp only [Except.ok.injEq, Prod.mk.injEq] at h
          obtain ⟨rfl, rfl⟩ := h
          have hs : s = quoted b ++ (q ++ v) := by
            rw [← heq]
            cases s with
            | nil => simp at hhead
            | cons c s =>
              simp only [List.head?_cons, Option.some.injEq] at hhead
              rw [hhead, List.tail_cons]
          rw [storeAll_of_room (by
            rw [hs] at hroom
            simp only [List.length_append, List.length_nil] at hroom ⊢
            omega)] at htoken
          rw [htoken, List.nil_append]
          exact ⟨quoted b ++ q, .quote hb hqs, by rw [hs, List.append_assoc]⟩
  · obtain ⟨_, x, m, hx, rfl, rfl⟩ := dotLoop_sound h
    exact ⟨x, .atoms (by simpa using hx), rfl⟩

theorem localPart_complete {capacity e : ℕ} {x l u : Bytes} (hx : LocalPart x l)
    (he : e ≤ u.length) (hroom : l.length < capacity) :
    localPart capacity e (x ++ 64 :: u) = .ok (l, 64 :: u) := by
  have hfresh : Fresh (64 :: u) := fresh_cons.mpr (by decide)
  unfold localPart
  cases hx with
  | atoms h =>
    have hhead : (x ++ 64 :: u).head? ≠ some 34 := by
      have hrun : ∀ {a : Bytes}, Run isAtext a → ∀ s, (a ++ s).head? ≠ some 34 := by
        intro a ha s
        obtain ⟨hne, hmem⟩ := ha
        cases a with
        | nil => exact absurd rfl hne
        | cons c a => simpa using (tokenClass_atext.clear c (hmem c (by simp))).2.2
      cases h with
      | last ha _ =>
        rw [List.append_assoc]
        exact hrun ha _
      | dot ha _ _ _ =>
        rw [List.append_assoc]
        exact hrun ha _
    rw [if_neg hhead]
    have hhalt : Halts isAtext e (64 :: u) := by
      right
      intro c t heq
      obtain ⟨rfl, _⟩ := List.cons.inj heq
      decide
    refine dotLoop_complete tokenClass_atext (by decide) h hfresh hhalt (Or.inr (by simp)) ?_ ?_
    · simp only [List.length_cons]
      omega
    · simp only [List.length_nil]
      omega
  | @quote b q hb hq =>
    have hsplit : quoted b ++ q ++ 64 :: u = 34 :: (b ++ 34 :: (q ++ 64 :: u)) := by simp [quoted]
    have htoken : storeAll (capacity - 1) [] (quoted b) = quoted b :=
      storeAll_of_room (by simp only [List.length_nil]; omega)
    rw [hsplit, List.head?_cons, if_pos rfl, List.tail_cons, parseQuote_complete hb, htoken]
    simp only [List.length_append, List.length_cons]
    rw [if_neg (by omega), cfws_spaced hq, cfws_fresh hfresh]

theorem domainPart_complete {capacity : ℕ} {r y d out t : Bytes} (hr : Spaced r)
    (hy : Dotted isLdh y d) (ht : AtStop t) (hroom : out.length + d.length ≤ capacity) :
    domainPart capacity t.length out (r ++ (y ++ t)) = .ok (out ++ d, t) := by
  have hfresh : Fresh t := by
    have hstop : ∀ c : Byte, isStop c = true → isBlank c = false ∧ c ≠ 40 := by decide +kernel
    exact fun c u heq => hstop c (ht c u heq)
  have hpos := hy.length_pos
  rw [domainPart, cfws_spaced hr, cfws_fresh (hy.fresh tokenClass_ldh t)]
  simp only [List.length_append]
  rw [if_neg (by omega)]
  exact dotLoop_complete tokenClass_ldh (by decide) hy hfresh (Or.inl rfl) (Or.inl rfl) le_rfl hroom

theorem domainPart_sound {capacity e : ℕ} {out out' s t : Bytes}
    (h : domainPart capacity e out s = .ok (out', t)) :
    ∃ r y d, Spaced r ∧ Dotted isLdh y d ∧ s = r ++ (y ++ t) ∧ out' = out ++ d := by
  unfold domainPart at h
  split at h
  · simp at h
  · next u hu =>
    obtain ⟨_, r, hr, rfl⟩ := cfws_sound hu
    split at h
    · simp at h
    · obtain ⟨_, y, d, hy, rfl, rfl⟩ := dotLoop_sound h
      exact ⟨r, y, d, hr, hy, rfl, rfl⟩

theorem specText_sound {capacity e : ℕ} {s out : Bytes} (hroom : s.length < capacity)
    (h : specText capacity e s = .ok out) :
    ∃ x t, AddrSpec x out ∧ s = x ++ t ∧ t.length = e := by
  unfold specText at h
  split at h
  · simp at h
  · next s1 hs1 =>
    have hle := boundedCfws_length hs1
    obtain ⟨_, p, hp, rfl⟩ := cfws_sound hs1
    split at h
    · simp at h
    · split at h
      · simp at h
      · next l s2 hl =>
        obtain ⟨x, hx, rfl⟩ := localPart_sound (by omega) hl
        split at h
        · simp at h
        · next hat =>
          push Not at hat
          split at h
          · simp at h
          · next out1 hp1 =>
            have hout : out1 = l ++ [64] := by
              unfold push at hp1
              split at hp1 <;> simp_all
            split at h
            · simp at h
            · next out2 t hd =>
              obtain ⟨r, y, d, hr, hy, htail, rfl⟩ := domainPart_sound hd
              split at h
              · simp at h
              · next hlen =>
                split at h
                · simp only [Except.ok.injEq] at h
                  have hs2 : s2 = 64 :: (r ++ (y ++ t)) := by
                    cases s2 with
                    | nil => simp at hat
                    | cons c s2 =>
                      simp only [List.head?_cons, Option.some.injEq] at hat
                      rw [← htail, hat.2, List.tail_cons]
                  have hm : out = l ++ 64 :: d := by rw [← h, hout, List.append_assoc]; rfl
                  rw [hm]
                  exact ⟨_, t, .mk hp hx hr hy, by rw [hs2]; simp, by omega⟩
                · simp at h

theorem specText_complete {capacity : ℕ} {x m t : Bytes} (h : AddrSpec x m) (ht : AtStop t)
    (hroom : x.length < capacity) : specText capacity t.length (x ++ t) = .ok m := by
  obtain ⟨hp, hx, hr, hy⟩ := h
  rename_i p x l r y d
  have hl := hx.length_le
  have hd := hy.length_le
  have hpos := hx.length_pos
  simp only [List.length_append, List.length_cons] at hroom
  have hsplit : p ++ (x ++ 64 :: (r ++ y)) ++ t = p ++ (x ++ 64 :: (r ++ (y ++ t))) := by simp
  have hpush : push capacity l 64 = .ok (l ++ [64]) := if_pos (by omega)
  have hdomain : domainPart capacity t.length (l ++ [64]) (r ++ (y ++ t)) =
      .ok (l ++ [64] ++ d, t) := by
    refine domainPart_complete hr hy ht ?_
    simp only [List.length_append, List.length_cons, List.length_nil]
    omega
  have hlocal : localPart capacity t.length (x ++ 64 :: (r ++ (y ++ t))) =
      .ok (l, 64 :: (r ++ (y ++ t))) := by
    refine localPart_complete hx ?_ (by omega)
    simp only [List.length_append]
    omega
  have hout : (l ++ [64] ++ d).length < capacity := by
    simp only [List.length_append, List.length_cons, List.length_nil]
    omega
  have hspan : ¬ (x ++ 64 :: (r ++ (y ++ t))).length ≤ t.length := by
    simp only [List.length_append, List.length_cons]
    omega
  have hat : ¬ ((64 :: (r ++ (y ++ t))).length ≤ t.length ∨
      (64 :: (r ++ (y ++ t))).head? ≠ some 64) := by
    simp only [List.length_append, List.length_cons, List.head?_cons, ne_eq, not_true_eq_false,
      or_false]
    omega
  rw [hsplit, specText, cfws_spaced hp, cfws_fresh (hx.fresh _)]
  simp only [hspan, hlocal, hat, hpush, List.tail_cons, hdomain, ne_eq, not_true_eq_false, hout,
    if_true, if_false]
  simp

/-! ### Phrases -/

theorem skipWord_sound (e : ℕ) (s : Bytes) :
    ∃ a, (∀ c ∈ a, isPhraseByte c = true) ∧ s = a ++ skipWord e s ∧
      (e ≤ s.length → e ≤ (skipWord e s).length) := by
  induction s with
  | nil => exact ⟨[], by simp, by simp [skipWord], by simp [skipWord]⟩
  | cons c s ih =>
    by_cases hc : e < s.length + 1 ∧ isPhraseByte c = true
    · obtain ⟨a, ha, hs, he⟩ := ih
      rw [skipWord, if_pos hc]
      refine ⟨c :: a, ?_, by rw [List.cons_append, ← hs], fun _ => he (by omega)⟩
      intro d hd
      rcases List.mem_cons.mp hd with rfl | hd
      · exact hc.2
      · exact ha d hd
    · rw [skipWord, if_neg hc]
      exact ⟨[], by simp, rfl, fun h => h⟩

/-- Only whether a token was read matters. -/
theorem phrase_tokens {capacity e n m : ℕ} (hn : n ≠ 0) (hm : m ≠ 0) (s : Bytes) :
    boundedPhrase capacity e n s = boundedPhrase capacity e m s := by
  fun_induction boundedPhrase capacity e n s generalizing m <;>
    fun_cases boundedPhrase capacity e m _ <;> grind

theorem phrase_cfws {capacity e n : ℕ} {s u : Bytes} (hs : boundedCfws s = some u)
    (he : e ≤ u.length) : boundedPhrase capacity e n s = boundedPhrase capacity e n u := by
  have hle := boundedCfws_length hs
  have hu := cfws_idem hs
  fun_cases boundedPhrase capacity e n s <;> fun_cases boundedPhrase capacity e n u <;> grind

theorem phrase_spaced {capacity n : ℕ} {q t : Bytes} (hq : Spaced q) (ht : Fresh t) :
    boundedPhrase capacity t.length n (q ++ t) = decide (n ≠ 0) := by
  rw [phrase_cfws ((cfws_spaced hq t).trans (cfws_fresh ht)) le_rfl, boundedPhrase,
    if_pos le_rfl]

theorem phrase_quoted {capacity e n : ℕ} {b s : Bytes} (hb : QuotedText b) (he : e ≤ s.length) :
    boundedPhrase capacity e n (quoted b ++ s) = boundedPhrase capacity e (n + 1) s := by
  have hsplit : quoted b ++ s = 34 :: (b ++ 34 :: s) := by simp [quoted]
  have hread := parseQuote_complete hb (capacity - 1) [] s
  have hfresh : boundedCfws (34 :: (b ++ 34 :: s)) = some (34 :: (b ++ 34 :: s)) :=
    cfws_fresh (fresh_cons.mpr (by decide))
  have hlen : e < (b ++ 34 :: s).length := by
    simp only [List.length_append, List.length_cons]
    omega
  rw [hsplit]
  fun_cases boundedPhrase capacity e n (34 :: (b ++ 34 :: s)) <;> grind

/-- A phrase is read over one byte of a run as if the run ended there. -/
theorem phrase_byte {capacity e n : ℕ} {c : Byte} {s : Bytes} (hc : isPhraseByte c = true)
    (he : e ≤ s.length) :
    boundedPhrase capacity e n (c :: s) = boundedPhrase capacity e 1 s := by
  have hstep : ∀ {n : ℕ} {c : Byte} {s : Bytes}, isPhraseByte c = true → e ≤ s.length →
      boundedPhrase capacity e n (c :: s) = boundedPhrase capacity e (n + 1) (skipWord e s) := by
    intro n c s hc he
    have hcls := tokenClass_phrase.clear c hc
    have hfresh : boundedCfws (c :: s) = some (c :: s) :=
      cfws_fresh (fresh_cons.mpr ⟨tokenClass_phrase.fresh c hc, hcls.2.1⟩)
    fun_cases boundedPhrase capacity e n (c :: s) <;> grind
  rw [hstep hc he]
  cases s with
  | nil => exact phrase_tokens (by omega) (by omega) _
  | cons d s =>
    by_cases hd : e < s.length + 1 ∧ isPhraseByte d = true
    · rw [skipWord, if_pos hd, hstep hd.2 (by omega)]
      exact phrase_tokens (by omega) (by omega) _
    · rw [skipWord, if_neg hd]
      exact phrase_tokens (by omega) (by omega) _

theorem phrase_word {capacity e n : ℕ} {w s : Bytes} (hw : Word w) (he : e ≤ s.length) :
    boundedPhrase capacity e n (w ++ s) = boundedPhrase capacity e 1 s := by
  cases hw with
  | quote hb =>
    rw [phrase_quoted hb he]
    exact phrase_tokens (by omega) (by omega) s
  | run ha =>
    obtain ⟨hne, hmem⟩ := ha
    induction w generalizing n with
    | nil => exact absurd rfl hne
    | cons c a ih =>
      have hlen : e ≤ (a ++ s).length := by
        simp only [List.length_append]
        omega
      rw [List.cons_append, phrase_byte (hmem c (by simp)) hlen]
      by_cases ha : a = []
      · rw [ha, List.nil_append]
      · exact ih ha fun d hd => hmem d (List.mem_cons_of_mem _ hd)

theorem Word.fresh {w : Bytes} (h : Word w) (s : Bytes) : Fresh (w ++ s) := by
  cases h with
  | quote _ => exact fresh_cons.mpr (by decide)
  | run ha => exact ha.fresh tokenClass_phrase s

theorem phrase_complete {capacity n : ℕ} {x t : Bytes} (hx : Phrase x) (ht : Fresh t) :
    boundedPhrase capacity t.length n (x ++ t) = true := by
  have hword : ∀ {n : ℕ} {p w s : Bytes}, Spaced p → Word w → t.length ≤ s.length →
      boundedPhrase capacity t.length n (p ++ (w ++ s)) =
        boundedPhrase capacity t.length 1 s := by
    intro n p w s hp hw hs
    have hcfws : boundedCfws (p ++ (w ++ s)) = some (w ++ s) := by
      rw [cfws_spaced hp, cfws_fresh (hw.fresh s)]
    rw [phrase_cfws hcfws (by simp only [List.length_append]; omega), phrase_word hw hs]
  induction hx generalizing n with
  | last hp hw hq =>
    simp only [List.append_assoc]
    rw [hword hp hw (by simp), phrase_spaced hq ht]
    rfl
  | cons hp hw _ ih =>
    simp only [List.append_assoc]
    rw [hword hp hw (by simp)]
    exact ih

/-- A phrase after the spacing before it. -/
theorem Phrase.strip {n : Bytes} (h : Phrase n) :
    ∃ p x, Spaced p ∧ Phrase x ∧ n = p ++ x ∧ ∀ s, Fresh (x ++ s) := by
  cases h with
  | @last p w q hp hw hq =>
    refine ⟨p, w ++ q, hp, .last (p := []) .nil hw hq, rfl, fun s => ?_⟩
    rw [List.append_assoc]
    exact hw.fresh _
  | @cons p w x hp hw hx =>
    refine ⟨p, w ++ x, hp, .cons (p := []) .nil hw hx, rfl, fun s => ?_⟩
    rw [List.append_assoc]
    exact hw.fresh _

theorem phrase_sound {capacity e n : ℕ} {s : Bytes} (he : e ≤ s.length)
    (h : boundedPhrase capacity e n s = true) :
    ∃ x t, s = x ++ t ∧ t.length = e ∧ (Phrase x ∨ n ≠ 0 ∧ Spaced x) := by
  -- a word after spacing, and what the rest of the loop read
  have hcons : ∀ {p w x : Bytes} {n : ℕ}, Spaced p → Word w →
      (Phrase x ∨ n + 1 ≠ 0 ∧ Spaced x) → Phrase (p ++ (w ++ x)) := by
    intro p w x n hp hw hx
    rcases hx with hx | ⟨_, hx⟩
    · exact .cons hp hw hx
    · exact .last hp hw hx
  fun_induction boundedPhrase capacity e n s with
  | case1 n s hle => exact ⟨[], s, rfl, by omega, Or.inr ⟨by simpa using h, .nil⟩⟩
  | case2 => simp at h
  | case3 => simp at h
  | case4 n s _ hu he0 =>
    obtain ⟨_, p, hp, rfl⟩ := cfws_sound hu
    refine ⟨p, [], rfl, ?_, Or.inr ⟨by simpa using h, hp⟩⟩
    simp only [List.length_nil]
    omega
  | case5 => simp at h
  | case6 n s _ c t hu _ hlen =>
    obtain ⟨_, p, hp, rfl⟩ := cfws_sound hu
    exact ⟨p, c :: t, rfl, hlen, Or.inr ⟨by simpa using h, hp⟩⟩
  | case7 => simp at h
  | case8 => simp at h
  | case9 n s _ t _ _ token u hq hlen hu ih =>
    obtain ⟨_, p, hp, rfl⟩ := cfws_sound hu
    obtain ⟨x, v, rfl, hv, hx⟩ := ih (by omega) h
    obtain ⟨b, hb, heq, _⟩ := parseQuote_sound hq
    exact ⟨_, v, by rw [heq]; simp, hv, Or.inl (hcons hp (.quote hb) hx)⟩
  | case10 => simp at h
  | case11 n s _ c t hu hlt hne h34 hc ih =>
    obtain ⟨_, p, hp, rfl⟩ := cfws_sound hu
    obtain ⟨a, ha, heq, hle⟩ := skipWord_sound e t
    obtain ⟨x, v, hskip, hv, hx⟩ := ih (hle (by omega)) h
    have hword : Word (c :: a) := by
      refine .run ⟨by simp, ?_⟩
      intro d hd
      rcases List.mem_cons.mp hd with rfl | hd
      · simpa using hc
      · exact ha d hd
    refine ⟨_, v, ?_, hv, Or.inl (hcons hp hword hx)⟩
    rw [heq, hskip]
    simp

end Rfc822

end JaroFilter
