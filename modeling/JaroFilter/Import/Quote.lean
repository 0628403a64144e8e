import JaroFilter.Policy.Grammar
import JaroFilter.Products.Cache

/-!
# Tokens the importer writes (`import.c:123-132`)

The importer writes back selectors and destinations as quoted tokens of the
policy text; the lexer reads each back as the string it was.
-/

namespace JaroFilter

open Lib

def quoteLoop : Bytes → Bytes → Option Bytes
  | b, [] => some b
  | b, c :: s => do
    let b ← if c = 34 ∨ c = 92 then bytesAdd cacheMax b [92] else some b
    if c < 32 then none
    else
      let b ← bytesAdd cacheMax b [c]
      quoteLoop b s

/-- `quote` (`import.c:124`): `none` for a control byte or a full buffer. -/
def quote (b s : Bytes) : Option Bytes := do
  let b ← bytesAdd cacheMax b [34]
  let b ← quoteLoop b s
  bytesAdd cacheMax b [34]

theorem bytesAdd_eq {limit : ℕ} (b s : Bytes) :
    bytesAdd limit b s = if (b ++ s).length ≤ limit then some (b ++ s) else none := by
  rw [bytesAdd, List.length_append]
  exact if_congr (by omega) rfl rfl

theorem quoteLoop_eq {b s : Bytes} (h : ∀ c ∈ s, 32 ≤ c) (hb : b.length ≤ cacheMax) :
    quoteLoop b s = if (b ++ escape s).length ≤ cacheMax then some (b ++ escape s) else none := by
  induction s generalizing b with
  | nil => simp only [quoteLoop, escape_nil, List.append_nil, hb, if_true]
  | cons c s ih =>
    have hc : ¬ c < 32 := by simpa using h c (by simp)
    have hs := fun d hd => h d (List.mem_cons_of_mem _ hd)
    by_cases hq : c = 34 ∨ c = 92
    · rw [escape_cons_special hq]
      simp only [quoteLoop, if_pos hq, if_neg hc, bytesAdd_eq, Option.bind_eq_bind]
      by_cases h1 : (b ++ [92]).length ≤ cacheMax
      · rw [if_pos h1, Option.bind_some]
        by_cases h2 : (b ++ [92] ++ [c]).length ≤ cacheMax
        · rw [if_pos h2, Option.bind_some, ih hs h2]
          simp only [List.append_assoc, List.cons_append, List.nil_append]
        · rw [if_neg h2, Option.bind_none, if_neg]
          simp only [List.length_append, List.length_cons, List.length_nil] at h2 ⊢
          omega
      · rw [if_neg h1, Option.bind_none, if_neg]
        simp only [List.length_append, List.length_cons, List.length_nil] at h1 ⊢
        omega
    · rw [escape_cons_plain hq]
      simp only [quoteLoop, if_neg hq, if_neg hc, bytesAdd_eq, Option.bind_eq_bind, Option.bind_some]
      by_cases h2 : (b ++ [c]).length ≤ cacheMax
      · rw [if_pos h2, Option.bind_some, ih hs h2]
        simp only [List.append_assoc, List.cons_append, List.nil_append]
      · rw [if_neg h2, Option.bind_none, if_neg]
        simp only [List.length_append, List.length_cons, List.length_nil] at h2 ⊢
        omega

theorem quote_eq {s : Bytes} (h : ∀ c ∈ s, 32 ≤ c) (b : Bytes) :
    quote b s = if (b ++ (34 :: escape s ++ [34])).length ≤ cacheMax then
      some (b ++ (34 :: escape s ++ [34])) else none := by
  simp only [quote, bytesAdd_eq, Option.bind_eq_bind]
  by_cases h1 : (b ++ [34]).length ≤ cacheMax
  · rw [if_pos h1, Option.bind_some, quoteLoop_eq h h1]
    by_cases h2 : (b ++ [34] ++ escape s).length ≤ cacheMax
    · rw [if_pos h2, Option.bind_some]
      simp only [List.append_assoc, List.cons_append, List.nil_append]
    · rw [if_neg h2, Option.bind_none, if_neg]
      simp only [List.length_append, List.length_cons, List.length_nil] at h2 ⊢
      omega
  · rw [if_neg h1, Option.bind_none, if_neg]
    simp only [List.length_append, List.length_cons, List.length_nil] at h1 ⊢
    omega

/-- A line of text is accepted exactly when it is in the grammar, and then its
tokens are the decoded ones; the buffer never overflows and its pointers read
back as the tokens. What the importer quotes is one token, the string itself,
unless the output is full. -/
theorem lex_accepts_grammar {s : Bytes} (hs : IsText s) :
    (∀ ts, lex s = .ok ts ↔ Line s ts ∧ ts.length ≤ 5) ∧
      (∀ ts, lex s = .ok ts → ∀ t ∈ ts, IsText t) ∧
      (writeLex s).1.length ≤ s.length + 1 ∧
      lex s = (writeLex s).2.map (fun starts => starts.map (cstringAt (writeLex s).1)) ∧
      ((∀ c ∈ s, 32 ≤ c) → ∃ q, lex q = .ok [s] ∧
        ∀ b, quote b s = if (b ++ q).length ≤ cacheMax then some (b ++ q) else none) := by
  have hvalid := validUtf8_iff.mpr hs
  refine ⟨fun ts => lex_iff, ?_, writeLex_length s, lex_eq_write hvalid, ?_⟩
  · intro ts hts t ht
    exact validUtf8_iff.mp (lex_spec hts hvalid t ht).1
  · intro h
    exact ⟨34 :: escape s ++ [34], lex_escape h, quote_eq h⟩

/-- The line `a "\""`. -/
theorem lex_accepts_grammar_sample : Line [97, 32, 34, 92, 34, 34] [[97], [34]] := by
  have hs : IsText [97, 32, 34, 92, 34, 34] :=
    ⟨['a', ' ', '"', '\\', '"', '"'], by decide, by decide⟩
  have hlex : lex [97, 32, 34, 92, 34, 34] = .ok [[97], [34]] := rfl
  exact (((lex_accepts_grammar hs).1 _).mp hlex).1

end JaroFilter
