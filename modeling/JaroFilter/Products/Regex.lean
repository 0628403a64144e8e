import JaroFilter.Lib.Ere
import JaroFilter.Products.Profile

/-!
# The qualified expressions (`regex_subset.c`)

`jf_regex_supported` accepts the texts of the qualified concatenations, each of
one concatenation. A reader of extended regular expressions finds in such a text
a sequence of one-character matchers with optional anchors, so all its matches
have one length and every search finds the same one.
-/

namespace JaroFilter

open Lib

/-- An atom of a qualified expression. -/
inductive Atom where
  | plain (c : Byte)
    (h : (32 ≤ c ∧ c ≤ 126) ∧ c ∉ metacharacters ∧ c ≠ 46 ∧ c ≠ 92)
  | dot
  | bracketDot
  | escaped (c : Byte) (h : c ∈ escapable)

def Atom.text : Atom → Bytes
  | .plain c _ => [c]
  | .dot => [46]
  | .bracketDot => [91, 46, 93]
  | .escaped c _ => [92, c]

/-- What an extended regular expression matches with an atom. -/
def Atom.matcher : Atom → Matcher
  | .plain c _ => .lit c
  | .dot => .any
  | .bracketDot => .set false [(46, 46)]
  | .escaped c _ => .lit c

/-- An optional caret, atoms, and an optional dollar. -/
structure Qualified where
  caret : Bool
  atoms : List Atom
  ne_nil : atoms ≠ []
  dollar : Bool

def dollarText (dollar : Bool) : Bytes := if dollar then [36] else []

def Qualified.text (p : Qualified) : Bytes :=
  (if p.caret then [94] else []) ++ (p.atoms.flatMap Atom.text ++ dollarText p.dollar)

/-! ### The scan -/

theorem regexLoop_cons {fuel : ℕ} {c : Byte} {s : Bytes} :
    regexLoop (fuel + 1) (c :: s) =
      if c < 32 ∨ 126 < c then false
      else if c = 36 ∧ s = [] then true
      else if c = 92 then
        match s with
        | [] => false
        | e :: s => if escapable.contains e then regexLoop fuel s else false
      else if c = 91 ∧ cstr ".]" <+: s then regexLoop fuel (s.drop 2)
      else if metacharacters.contains c then false
      else regexLoop fuel s := by
  rw [regexLoop.eq_def]
  cases s <;> rfl

/-- A byte that stands for itself. -/
theorem regexLoop_plain {fuel : ℕ} {c : Byte} (t : Bytes)
    (h : (32 ≤ c ∧ c ≤ 126) ∧ c ∉ metacharacters ∧ c ≠ 92) :
    regexLoop (fuel + 1) (c :: t) = regexLoop fuel t := by
  obtain ⟨hprint, hmeta, h92⟩ := h
  have h36 : c ≠ 36 := by
    rintro rfl
    exact hmeta (by decide)
  have h91 : c ≠ 91 := by
    rintro rfl
    exact hmeta (by decide)
  have hrange : ¬ (c < 32 ∨ 126 < c) := by
    simp only [not_or, UInt8.not_lt]
    exact hprint
  rw [regexLoop_cons, if_neg hrange, if_neg (by simp [h36]), if_neg h92, if_neg (by simp [h91]),
    if_neg (by simpa using hmeta)]

theorem regexLoop_atom {fuel : ℕ} (a : Atom) (t : Bytes) :
    regexLoop (fuel + 1) (a.text ++ t) = regexLoop fuel t := by
  cases a with
  | plain c h => exact regexLoop_plain t ⟨h.1, h.2.1, h.2.2.2⟩
  | dot => exact regexLoop_plain t (by decide)
  | bracketDot =>
    have htext : cstr ".]" = [46, 93] := by decide
    have hpre : cstr ".]" <+: 46 :: 93 :: t := by
      rw [htext]
      exact ⟨t, rfl⟩
    have hsplit : Atom.bracketDot.text ++ t = 91 :: 46 :: 93 :: t := rfl
    rw [hsplit, regexLoop_cons, if_neg (by decide), if_neg (by simp), if_neg (by decide),
      if_pos ⟨rfl, hpre⟩]
    rfl
  | escaped c h =>
    have hsplit : (Atom.escaped c h).text ++ t = 92 :: c :: t := rfl
    rw [hsplit, regexLoop_cons, if_neg (by decide), if_neg (by simp), if_pos rfl]
    simp [h]

theorem regexLoop_complete {fuel : ℕ} (atoms : List Atom) (dollar : Bool) :
    regexLoop fuel (atoms.flatMap Atom.text ++ dollarText dollar) = true := by
  induction atoms generalizing fuel with
  | nil =>
    cases fuel with
    | zero => rfl
    | succ fuel =>
      cases dollar with
      | false => rfl
      | true => rw [List.flatMap_nil, List.nil_append, dollarText, if_pos rfl, regexLoop_cons,
          if_neg (by decide), if_pos ⟨rfl, rfl⟩]
  | cons a atoms ih =>
    cases fuel with
    | zero => rfl
    | succ fuel => rw [List.flatMap_cons, List.append_assoc, regexLoop_atom, ih]

theorem regexLoop_sound {fuel : ℕ} {s : Bytes} (hfuel : s.length ≤ fuel)
    (h : regexLoop fuel s = true) :
    ∃ (atoms : List Atom) (dollar : Bool), s = atoms.flatMap Atom.text ++ dollarText dollar := by
  induction fuel generalizing s with
  | zero => exact ⟨[], false, by simpa [dollarText] using hfuel⟩
  | succ fuel ih =>
    cases s with
    | nil => exact ⟨[], false, by simp [dollarText]⟩
    | cons c s =>
      -- an atom at the front of what the rest of the scan accepts
      have hfront : ∀ (a : Atom) (t : Bytes), c :: s = a.text ++ t → regexLoop fuel t = true →
          ∃ (atoms : List Atom) (dollar : Bool),
            c :: s = atoms.flatMap Atom.text ++ dollarText dollar := by
        intro a t heq ht
        have hlen := congrArg List.length heq
        have hpos : 0 < a.text.length := by cases a <;> simp [Atom.text]
        simp only [List.length_cons, List.length_append] at hlen hfuel
        obtain ⟨atoms, dollar, rfl⟩ := ih (by omega) ht
        exact ⟨a :: atoms, dollar, by rw [heq, List.flatMap_cons, List.append_assoc]⟩
      rw [regexLoop_cons] at h
      split at h
      · simp at h
      · next hrange =>
        have hprint : 32 ≤ c ∧ c ≤ 126 := by
          simpa only [not_or, UInt8.not_lt] using hrange
        split at h
        · next hend => exact ⟨[], true, by simp [dollarText, hend.1, hend.2]⟩
        · split at h
          · next h92 =>
            cases s with
            | nil => simp at h
            | cons e t =>
              simp only at h
              split at h
              · next he => exact hfront (.escaped e (by simpa using he)) t (by rw [h92]; rfl) h
              · simp at h
          · next h92 =>
            split at h
            · next hb =>
              obtain ⟨h91, t, rfl⟩ := hb
              have htext : cstr ".]" = [46, 93] := by decide
              rw [htext] at h
              exact hfront .bracketDot t (by rw [h91, htext]; rfl) h
            · split at h
              · simp at h
              · next hmeta =>
                have hmeta : c ∉ metacharacters := by simpa using hmeta
                by_cases h46 : c = 46
                · exact hfront .dot s (by rw [h46]; rfl) h
                · exact hfront (.plain c ⟨hprint, hmeta, h46, h92⟩) s rfl h

/-- An atom starts with neither anchor. -/
theorem Atom.text_head (a : Atom) : ∃ c t, a.text = c :: t ∧ c ≠ 94 ∧ c ≠ 36 := by
  cases a with
  | plain c h =>
    refine ⟨c, [], rfl, ?_, ?_⟩
    · rintro rfl
      exact h.2.1 (by decide)
    · rintro rfl
      exact h.2.1 (by decide)
  | dot => exact ⟨46, [], rfl, by decide, by decide⟩
  | bracketDot => exact ⟨91, _, rfl, by decide, by decide⟩
  | escaped c h => exact ⟨92, _, rfl, by decide, by decide⟩

/-- The text of a qualified expression after its caret. -/
theorem Qualified.body_head (p : Qualified) :
    ∃ c t, p.atoms.flatMap Atom.text ++ dollarText p.dollar = c :: t ∧ c ≠ 94 ∧ c ≠ 36 := by
  obtain ⟨caret, atoms, hne, dollar⟩ := p
  cases atoms with
  | nil => exact absurd rfl hne
  | cons a atoms =>
    obtain ⟨c, t, ha, h94, h36⟩ := a.text_head
    exact ⟨c, t ++ (atoms.flatMap Atom.text ++ dollarText dollar), by simp [ha], h94, h36⟩

theorem regexSupported_iff {s : Bytes} :
    regexSupported s = true ↔ ∃ p : Qualified, p.text = s := by
  have hbody : ∀ {t : Bytes}, (if t = [] ∨ t = [36] then false else regexLoop t.length t) = true ↔
      ∃ p : Qualified, p.atoms.flatMap Atom.text ++ dollarText p.dollar = t := by
    intro t
    constructor
    · intro h
      split at h
      · simp at h
      · next ht =>
        obtain ⟨atoms, dollar, rfl⟩ := regexLoop_sound le_rfl h
        refine ⟨⟨false, atoms, ?_, dollar⟩, rfl⟩
        rintro rfl
        cases dollar <;> simp [dollarText] at ht
    · rintro ⟨p, rfl⟩
      obtain ⟨c, t, ht, _, h36⟩ := p.body_head
      rw [if_neg (by rw [ht]; simp [h36])]
      exact regexLoop_complete p.atoms p.dollar
  have hcaret : regexSupported s = true ↔ ∃ p : Qualified,
      p.atoms.flatMap Atom.text ++ dollarText p.dollar =
        if s.head? = some 94 then s.tail else s := by
    rw [← hbody]
    rfl
  rw [hcaret]
  constructor
  · rintro ⟨⟨caret, atoms, hne, dollar⟩, hp⟩
    split at hp
    · next hc =>
      refine ⟨⟨true, atoms, hne, dollar⟩, ?_⟩
      cases s with
      | nil => simp at hc
      | cons c t =>
        have hc : c = 94 := by simpa using hc
        rw [Qualified.text, hp, hc]
        rfl
    · exact ⟨⟨false, atoms, hne, dollar⟩, hp⟩
  · rintro ⟨p, rfl⟩
    refine ⟨p, ?_⟩
    obtain ⟨c, t, ht, h94, _⟩ := p.body_head
    cases hc : p.caret with
    | true => simp [Qualified.text, hc]
    | false => simp [Qualified.text, hc, ht, h94]

/-! ### The reading -/

/-- The tokens an atom is read as. -/
theorem ereTokens_atom (a : Atom) (t : Bytes) :
    ereTokens (a.text ++ t) = (ereTokens t).map (.one a.matcher :: ·) := by
  cases a with
  | plain c h =>
    have hne : ∀ d ∈ metacharacters, c ≠ d := fun d hd he => h.2.1 (he ▸ hd)
    have hchar : charToken c = .one (.lit c) := by
      rw [charToken, if_neg (hne 94 (by decide)), if_neg (hne 36 (by decide)), if_neg h.2.2.1,
        if_neg (hne 40 (by decide)), if_neg (hne 41 (by decide)), if_neg (hne 124 (by decide)),
        if_neg (hne 42 (by decide)), if_neg (hne 43 (by decide)), if_neg (hne 63 (by decide))]
    have hread := ereTokens_char ⟨h.2.2.2, hne 91 (by decide), hne 123 (by decide)⟩ t
    rw [hchar] at hread
    exact hread
  | dot => exact ereTokens_char (by decide) t
  | bracketDot =>
    have hend : bracketItems (93 :: t) = some ([], t) := by
      rw [bracketItems.eq_def]
      cases t <;> simp
    have hitems : bracketItems (46 :: 93 :: t) = some ([(46, 46)], t) := by
      rw [bracketItems.eq_def]
      simp [hend]
    refine ereTokens_bracket ?_
    simp [bracketExpression, hitems]
    rfl
  | escaped c h =>
    have hq : ∀ d ∈ escapable, quotable.contains d = true := by decide +kernel
    exact ereTokens_escape (hq c h) t

/-- The tokens of a qualified expression. -/
def Qualified.tokens (p : Qualified) : List EreToken :=
  (if p.caret then [.bol] else []) ++
    (p.atoms.map (fun a => .one a.matcher) ++ if p.dollar then [.eol] else [])

/-- The sequence a qualified expression stands for. -/
def Qualified.pieces (p : Qualified) : List Ere :=
  (if p.caret then [.bol] else []) ++
    (p.atoms.map (fun a => .one a.matcher) ++ if p.dollar then [.eol] else [])

theorem ereTokens_text (p : Qualified) : ereTokens p.text = some p.tokens := by
  obtain ⟨caret, atoms, hne, dollar⟩ := p
  have hend : ereTokens (dollarText dollar) = some (if dollar then [.eol] else []) := by
    cases dollar with
    | false =>
      rw [dollarText, if_neg (by decide), ereTokens]
      rfl
    | true =>
      rw [dollarText, if_pos rfl, ereTokens_char (by decide), ereTokens]
      rfl
  have hbody : ereTokens (atoms.flatMap Atom.text ++ dollarText dollar) =
      some (atoms.map (fun a => .one a.matcher) ++ if dollar then [.eol] else []) := by
    clear hne
    induction atoms with
    | nil => exact hend
    | cons a atoms ih => rw [List.flatMap_cons, List.append_assoc, ereTokens_atom, ih]; rfl
  cases caret with
  | false => exact hbody
  | true =>
    have hsplit : (Qualified.mk true atoms hne dollar).text =
        94 :: (atoms.flatMap Atom.text ++ dollarText dollar) := rfl
    rw [hsplit, ereTokens_char (by decide), hbody]
    rfl

/-- An escaped metacharacter is no plain byte. -/
theorem Atom.matcher_injective {a b : Atom} (h : a.matcher = b.matcher) : a = b := by
  have hapart : ∀ c ∈ escapable, c ∈ metacharacters ∨ c = 46 ∨ c = 92 := by decide +kernel
  have hno : ∀ {c : Byte}, ((32 ≤ c ∧ c ≤ 126) ∧ c ∉ metacharacters ∧ c ≠ 46 ∧ c ≠ 92) →
      c ∉ escapable := by
    intro c hc he
    rcases hapart c he with h | h | h
    · exact hc.2.1 h
    · exact hc.2.2.1 h
    · exact hc.2.2.2 h
  cases a with
  | plain c hc =>
    cases b with
    | plain d _ => simpa [Atom.matcher] using h
    | dot => simp [Atom.matcher] at h
    | bracketDot => simp [Atom.matcher] at h
    | escaped d hd =>
      have hcd : c = d := by simpa [Atom.matcher] using h
      exact absurd (hcd ▸ hd) (hno hc)
  | dot => cases b <;> simp [Atom.matcher] at h ⊢
  | bracketDot => cases b <;> simp [Atom.matcher] at h ⊢
  | escaped c hc =>
    cases b with
    | plain d hd =>
      have hcd : c = d := by simpa [Atom.matcher] using h
      exact absurd (hcd ▸ hc) (hno hd)
    | dot => simp [Atom.matcher] at h
    | bracketDot => simp [Atom.matcher] at h
    | escaped d _ => simpa [Atom.matcher] using h

theorem tokens_injective {p q : Qualified} (h : p.tokens = q.tokens) : p = q := by
  have hbol : ∀ p : Qualified, .bol ∈ p.tokens ↔ p.caret = true := by
    intro p
    simp [Qualified.tokens]
  have heol : ∀ p : Qualified, .eol ∈ p.tokens ↔ p.dollar = true := by
    intro p
    simp [Qualified.tokens]
  have hcaret : p.caret = q.caret := by
    rw [Bool.eq_iff_iff, ← hbol, ← hbol, h]
  have hdollar : p.dollar = q.dollar := by
    rw [Bool.eq_iff_iff, ← heol, ← heol, h]
  have hatoms : p.atoms = q.atoms := by
    simp only [Qualified.tokens, hcaret, hdollar, List.append_cancel_left_eq,
      List.append_cancel_right_eq] at h
    refine List.map_injective_iff.mpr (fun a b hab => ?_) h
    exact Atom.matcher_injective (EreToken.one.inj hab)
  cases p
  cases q
  simp_all

/-! ### The matches -/

/-- The expression matches at `i`: the anchors hold and each atom matches its character. -/
structure Qualified.FitsAt (p : Qualified) (text : List ℕ) (i : ℕ) : Prop where
  caret : p.caret = true → i = 0
  atoms : ∀ k (hk : k < p.atoms.length), ∃ x, text[i + k]? = some x ∧
    p.atoms[k].matcher.accepts x = true
  dollar : p.dollar = true → i + p.atoms.length = text.length

/-- A sequence of matchers ends where each of them has matched one character. -/
theorem endsAll_matchers {text : List ℕ} {atoms : List Atom} {rest : List Ere} {i j : ℕ} :
    j ∈ endsAll text (atoms.map (fun a => Ere.one a.matcher) ++ rest) i ↔
      (∀ k (hk : k < atoms.length), ∃ x, text[i + k]? = some x ∧
        atoms[k].matcher.accepts x = true) ∧ j ∈ endsAll text rest (i + atoms.length) := by
  induction atoms generalizing i with
  | nil => simp
  | cons a atoms ih =>
    have hone : j ∈ endsAll text ((a :: atoms).map (fun a => Ere.one a.matcher) ++ rest) i ↔
        (∃ x, text[i]? = some x ∧ a.matcher.accepts x = true) ∧
          j ∈ endsAll text (atoms.map (fun a => Ere.one a.matcher) ++ rest) (i + 1) := by
      simp only [List.map_cons, List.cons_append, endsAll, Ere.ends]
      cases hx : text[i]? with
      | none => simp
      | some x => cases hacc : a.matcher.accepts x <;> simp [hacc]
    rw [hone, ih]
    constructor
    · rintro ⟨hfirst, hrest, hj⟩
      refine ⟨?_, by simpa [Nat.add_assoc, Nat.add_comm 1] using hj⟩
      intro k hk
      cases k with
      | zero => simpa using hfirst
      | succ k =>
        have := hrest k (by simpa using hk)
        simpa [Nat.add_assoc, Nat.add_comm 1] using this
    · rintro ⟨hall, hj⟩
      have hzero := hall 0 (by simp)
      refine ⟨hzero, ?_, by simpa [Nat.add_assoc, Nat.add_comm 1] using hj⟩
      intro k hk
      have := hall (k + 1) (by simpa using hk)
      simpa [Nat.add_assoc, Nat.add_comm 1] using this

theorem endsAll_pieces {p : Qualified} {text : List ℕ} {i j : ℕ} :
    j ∈ endsAll text p.pieces i ↔ p.FitsAt text i ∧ j = i + p.atoms.length := by
  have hdollar : ∀ k, j ∈ endsAll text (if p.dollar then [.eol] else []) k ↔
      (p.dollar = true → k = text.length) ∧ j = k := by
    intro k
    cases p.dollar with
    | false => simp [endsAll]
    | true => by_cases hk : k = text.length <;> simp [endsAll, Ere.ends, hk]
  have hbody : ∀ k, j ∈ endsAll text (p.atoms.map (fun a => Ere.one a.matcher) ++
      if p.dollar then [.eol] else []) k ↔
        (∀ n (hn : n < p.atoms.length), ∃ x, text[k + n]? = some x ∧
          p.atoms[n].matcher.accepts x = true) ∧
        (p.dollar = true → k + p.atoms.length = text.length) ∧ j = k + p.atoms.length := by
    intro k
    rw [endsAll_matchers, hdollar]
  have hcaret : j ∈ endsAll text p.pieces i ↔ (p.caret = true → i = 0) ∧
      j ∈ endsAll text (p.atoms.map (fun a => Ere.one a.matcher) ++
        if p.dollar then [.eol] else []) i := by
    rw [Qualified.pieces]
    cases p.caret with
    | false => simp
    | true => by_cases hi : i = 0 <;> simp [endsAll, Ere.ends, hi]
  rw [hcaret, hbody]
  constructor
  · rintro ⟨hc, ha, hd, hj⟩
    exact ⟨⟨hc, ha, hd⟩, hj⟩
  · rintro ⟨⟨hc, ha, hd⟩, hj⟩
    exact ⟨hc, ha, hd, hj⟩

/-- Among equal ends the first is the greatest. -/
theorem head_eq_max {l : List ℕ} {n : ℕ} (h : ∀ j ∈ l, j = n) : l.head? = l.max? := by
  cases l with
  | nil => rfl
  | cons a l =>
    have ha := h a (by simp)
    rw [List.head?_cons, eq_comm, List.max?_eq_some_iff]
    refine ⟨by simp, fun b hb => ?_⟩
    rw [h b hb, ha]

/-- The scan accepts the qualified concatenations, each text of one of them. A
reading of such a text is that sequence of matchers, whose matches all have its
length, and the longest match is the first. -/
theorem regexSupported_qualified :
    (∀ s, regexSupported s = true ↔ ∃ p : Qualified, p.text = s) ∧
      (∀ p q : Qualified, p.text = q.text → p = q) ∧
      ∀ p : Qualified, (∃ r, Reads p.text r) ∧ ∀ r, Reads p.text r →
        r.pieces = p.pieces ∧
        (∀ text i j, j ∈ r.ends text i ↔ p.FitsAt text i ∧ j = i + p.atoms.length) ∧
        ∀ text, r.longestSearch text = r.firstSearch text ∧
          ((r.firstSearch text).isSome = true ↔ ∃ i, p.FitsAt text i) := by
  have hplain : ∀ p : Qualified, p.tokens.map EreToken.piece = p.pieces.map some := by
    intro p
    obtain ⟨caret, atoms, _, dollar⟩ := p
    cases caret <;> cases dollar <;>
      simp [Qualified.tokens, Qualified.pieces, EreToken.piece, Function.comp_def]
  refine ⟨fun s => regexSupported_iff, ?_, fun p => ⟨?_, ?_⟩⟩
  · intro p q h
    have htokens : some p.tokens = some q.tokens := by
      rw [← ereTokens_text, ← ereTokens_text, h]
    exact tokens_injective (Option.some.inj htokens)
  · have hne : p.tokens ≠ [] := by
      have := p.ne_nil
      simp [Qualified.tokens, this]
    obtain ⟨r, hr⟩ := derives_of_plain hne fun t ht => piece_of_plain (hplain p) ht
    exact ⟨r, p.tokens, ereTokens_text p, hr⟩
  · rintro r ⟨ts, hts, hr⟩
    have hread : p.tokens = ts := Option.some.inj ((ereTokens_text p).symm.trans hts)
    subst hread
    have hpieces : r.pieces = p.pieces := hr.pieces (hplain p)
    have hends : ∀ text i j, j ∈ r.ends text i ↔ p.FitsAt text i ∧ j = i + p.atoms.length := by
      intro text i j
      rw [ends_eq_pieces, hpieces]
      exact endsAll_pieces
    refine ⟨hpieces, hends, fun text => ⟨?_, ?_⟩⟩
    · refine search_congr fun i => ?_
      have hone : ∀ j ∈ r.ends text i, j = i + p.atoms.length := fun j hj =>
        ((hends text i j).mp hj).2
      exact (head_eq_max hone).symm
    · have hsearch : (r.firstSearch text).isSome = true ↔
          ∃ i ≤ text.length, r.ends text i ≠ [] :=
        search_isSome fun l => by cases l <;> rfl
      rw [hsearch]
      constructor
      · rintro ⟨i, _, hi⟩
        obtain ⟨j, hj⟩ := List.exists_mem_of_ne_nil _ hi
        exact ⟨i, ((hends text i j).mp hj).1⟩
      · rintro ⟨i, hi⟩
        refine ⟨i, ?_, List.ne_nil_of_mem ((hends text i _).mpr ⟨hi, rfl⟩)⟩
        -- the first atom has a character at `i`
        obtain ⟨x, hx, _⟩ := hi.atoms 0 (List.length_pos_iff.mpr p.ne_nil)
        have hlt := (List.getElem?_eq_some_iff.mp hx).1
        omega

end JaroFilter
