import JaroFilter.Lib.Bytes

/-!
# POSIX extended regular expressions

A reference reading of an extended regular expression: its tokens, the grammar
over them, and the matches of the expression in a subject in the order in which
a backtracking matcher tries them. The set of the matches is the same for every
matcher; which of them a search returns is its own choice, the longest or the
first. A subject is a list of character codes, so nothing depends on how
characters are encoded.
-/

namespace JaroFilter.Lib

/-- What matches one character. -/
inductive Matcher where
  | lit (c : Byte)
  | any
  | set (negated : Bool) (ranges : List (Byte × Byte))
  deriving DecidableEq, Repr

def Matcher.accepts : Matcher → ℕ → Bool
  | .lit c, x => x == c.toNat
  | .any, x => x != 0
  | .set negated ranges, x =>
    negated != ranges.any fun r => decide (r.1.toNat ≤ x) && decide (x ≤ r.2.toNat)

inductive EreToken where
  | one (m : Matcher)
  | bol | eol
  | lparen | rparen | bar
  | dup (low : ℕ) (high : Option ℕ)
  deriving DecidableEq, Repr

/-! ### Tokens -/

/-- What a backslash makes literal: the special characters and both closing brackets. -/
def quotable : Bytes := [94, 46, 91, 36, 40, 41, 124, 42, 43, 63, 123, 92, 93, 125]

/-- The items of a bracket expression, up to its end. Named classes are not read. -/
def bracketItems : Bytes → Option (List (Byte × Byte) × Bytes)
  | [] => none
  | [c] => if c = 93 then some ([], []) else none
  | c :: d :: s =>
    if c = 93 then some ([], d :: s)
    else if c = 91 ∧ (d = 46 ∨ d = 58 ∨ d = 61) then none
    else if d = 45 ∧ s.head? ≠ some 93 then
      match s with
      | [] => none
      | e :: s => (bracketItems s).map fun r => ((c, e) :: r.1, r.2)
    else (bracketItems (d :: s)).map fun r => ((c, c) :: r.1, r.2)

/-- A bracket expression after its opening bracket; a closing bracket that comes
first is an item. -/
def bracketExpression (s : Bytes) : Option (Matcher × Bytes) :=
  let negated := s.head? = some 94
  let s := if negated then s.tail else s
  match s with
  | [] => none
  | c :: t =>
    if c = 93 then (bracketItems t).map fun r => (.set negated ((93, 93) :: r.1), r.2)
    else (bracketItems (c :: t)).map fun r => (.set negated r.1, r.2)

/-- A decimal number and what follows it. -/
def decimal (s : Bytes) : ℕ × Bytes :=
  ((s.takeWhile fun c => 48 ≤ c && c ≤ 57).foldl (fun n c => 10 * n + (c.toNat - 48)) 0,
    s.dropWhile fun c => 48 ≤ c && c ≤ 57)

/-- An interval after its opening brace. -/
def interval (s : Bytes) : Option ((ℕ × Option ℕ) × Bytes) :=
  let (low, t) := decimal s
  if t.length = s.length then none
  else
    match t with
    | [] => none
    | c :: t =>
      if c = 125 then some ((low, some low), t)
      else if c ≠ 44 then none
      else
        let (high, u) := decimal t
        match u with
        | [] => none
        | d :: v =>
          if d ≠ 125 then none
          else if u.length = t.length then some ((low, none), v)
          else some ((low, some high), v)

theorem bracketItems_length {s t : Bytes} {rs : List (Byte × Byte)}
    (h : bracketItems s = some (rs, t)) : t.length < s.length := by
  fun_induction bracketItems s generalizing rs <;> grind [Option.map_eq_some_iff]

theorem bracketExpression_length {s t : Bytes} {m : Matcher}
    (h : bracketExpression s = some (m, t)) : t.length < s.length := by
  have hitems : ∀ {u : Bytes} {f : List (Byte × Byte) × Bytes → Matcher},
      (bracketItems u).map (fun r => (f r, r.2)) = some (m, t) → t.length < u.length := by
    intro u f hu
    obtain ⟨⟨rs, v⟩, hr, hv⟩ := Option.map_eq_some_iff.mp hu
    simp only [Prod.mk.injEq] at hv
    rw [← hv.2]
    exact bracketItems_length hr
  have hle : (if s.head? = some 94 then s.tail else s).length ≤ s.length := by
    split <;> simp
  simp only [bracketExpression] at h
  split at h
  · cases h
  · next c u hu =>
    have hu := congrArg List.length hu
    simp only [List.length_cons] at hu
    split at h
    · have := hitems h
      omega
    · have := hitems h
      simp only [List.length_cons] at this
      omega

theorem decimal_length (s : Bytes) : (decimal s).2.length ≤ s.length := by
  simp only [decimal]
  exact (List.dropWhile_suffix _).length_le

theorem interval_length {s t : Bytes} {r : ℕ × Option ℕ} (h : interval s = some (r, t)) :
    t.length < s.length := by
  have h1 := decimal_length s
  simp only [interval] at h
  split at h
  · cases h
  · split at h
    · cases h
    · next c u hu =>
      have h2 := decimal_length u
      rw [hu] at h1
      simp only [List.length_cons] at h1
      split at h
      · simp only [Option.some.injEq, Prod.mk.injEq] at h
        rw [← h.2]
        omega
      · split at h
        · cases h
        · split at h
          · cases h
          · next d v hv =>
            rw [hv] at h2
            simp only [List.length_cons] at h2
            split at h
            · cases h
            · split at h
              · simp only [Option.some.injEq, Prod.mk.injEq] at h
                rw [← h.2]
                omega
              · simp only [Option.some.injEq, Prod.mk.injEq] at h
                rw [← h.2]
                omega

/-- The token of a character that starts no longer one. -/
def charToken (c : Byte) : EreToken :=
  if c = 94 then .bol
  else if c = 36 then .eol
  else if c = 46 then .one .any
  else if c = 40 then .lparen
  else if c = 41 then .rparen
  else if c = 124 then .bar
  else if c = 42 then .dup 0 none
  else if c = 43 then .dup 1 none
  else if c = 63 then .dup 0 (some 1)
  else .one (.lit c)

/-- The tokens of an expression. A backslash before an ordinary character is not read. -/
def ereTokens : Bytes → Option (List EreToken)
  | [] => some []
  | c :: s =>
    if c = 92 then
      match s with
      | [] => none
      | d :: s => if quotable.contains d then (ereTokens s).map (.one (.lit d) :: ·) else none
    else if c = 91 then
      match _hb : bracketExpression s with
      | none => none
      | some (m, t) => (ereTokens t).map (.one m :: ·)
    else if c = 123 then
      match _hi : interval s with
      | none => none
      | some (r, t) => (ereTokens t).map (.dup r.1 r.2 :: ·)
    else (ereTokens s).map (charToken c :: ·)
termination_by s => s.length
decreasing_by
  · simp only [List.length_cons]
    omega
  · have := bracketExpression_length _hb
    simp only [List.length_cons]
    omega
  · have := interval_length _hi
    simp only [List.length_cons]
    omega
  · simp

theorem ereTokens_char {c : Byte} (h : c ≠ 92 ∧ c ≠ 91 ∧ c ≠ 123) (s : Bytes) :
    ereTokens (c :: s) = (ereTokens s).map (charToken c :: ·) := by
  generalize hx : c :: s = x
  fun_cases ereTokens x <;> simp_all

theorem ereTokens_escape {c : Byte} (h : quotable.contains c = true) (s : Bytes) :
    ereTokens (92 :: c :: s) = (ereTokens s).map (.one (.lit c) :: ·) := by
  generalize hx : 92 :: c :: s = x
  fun_cases ereTokens x <;> simp_all

theorem ereTokens_bracket {s t : Bytes} {m : Matcher} (h : bracketExpression s = some (m, t)) :
    ereTokens (91 :: s) = (ereTokens t).map (.one m :: ·) := by
  generalize hx : 91 :: s = x
  fun_cases ereTokens x <;> simp_all

/-! ### Expressions -/

inductive Ere where
  | one (m : Matcher)
  | bol | eol
  | group (r : Ere)
  | dup (r : Ere) (low : ℕ) (high : Option ℕ)
  | cat (a b : Ere)
  | alt (a b : Ere)
  deriving Repr

/-- The levels of the grammar: an expression, a branch of an alternation, the whole. -/
inductive EreLevel where
  | expression | branch | whole

/-- The grammar over tokens. -/
inductive Derives : EreLevel → List EreToken → Ere → Prop
  | one (m : Matcher) : Derives .expression [.one m] (.one m)
  | bol : Derives .expression [.bol] .bol
  | eol : Derives .expression [.eol] .eol
  | group {ts : List EreToken} {r : Ere} : Derives .whole ts r →
      Derives .expression (.lparen :: (ts ++ [.rparen])) (.group r)
  | dup {ts : List EreToken} {r : Ere} (low : ℕ) (high : Option ℕ) : Derives .expression ts r →
      Derives .expression (ts ++ [.dup low high]) (.dup r low high)
  | branch {ts : List EreToken} {r : Ere} : Derives .expression ts r → Derives .branch ts r
  | cat {ts us : List EreToken} {a b : Ere} : Derives .branch ts a → Derives .expression us b →
      Derives .branch (ts ++ us) (.cat a b)
  | whole {ts : List EreToken} {r : Ere} : Derives .branch ts r → Derives .whole ts r
  | alt {ts us : List EreToken} {a b : Ere} : Derives .whole ts a → Derives .branch us b →
      Derives .whole (ts ++ .bar :: us) (.alt a b)

/-- `r` is what the text denotes. -/
def Reads (s : Bytes) (r : Ere) : Prop := ∃ ts, ereTokens s = some ts ∧ Derives .whole ts r

/-- The expressions that an expression is a concatenation of. -/
def Ere.pieces : Ere → List Ere
  | .cat a b => a.pieces ++ b.pieces
  | r => [r]

/-- The expression of a token that is one by itself. -/
def EreToken.piece : EreToken → Option Ere
  | .one m => some (.one m)
  | .bol => some .bol
  | .eol => some .eol
  | _ => none

theorem piece_of_plain {ts : List EreToken} {ps : List Ere}
    (h : ts.map EreToken.piece = ps.map some) {t : EreToken} (ht : t ∈ ts) : t.piece ≠ none := by
  have hm : t.piece ∈ ps.map some := h ▸ List.mem_map_of_mem ht
  obtain ⟨r, _, hr⟩ := List.mem_map.mp hm
  simp [← hr]

/-- Tokens without groups, alternatives and repetitions have one reading, up to
how the concatenation is nested. -/
theorem Derives.pieces {level : EreLevel} {ts : List EreToken} {r : Ere} (h : Derives level ts r)
    {ps : List Ere} (hps : ts.map EreToken.piece = ps.map some) : r.pieces = ps := by
  have hone : ∀ {t : EreToken} {r : Ere} {ps : List Ere}, t.piece = some r →
      [t].map EreToken.piece = ps.map some → ps = [r] := by
    intro t r ps ht hps
    cases ps with
    | nil => simp at hps
    | cons q ps =>
      simp only [List.map_cons, List.map_nil, ht, List.cons.injEq, Option.some.injEq] at hps
      obtain ⟨rfl, hps⟩ := hps
      rw [List.map_eq_nil_iff.mp hps.symm]
  induction h generalizing ps with
  | one m => rw [hone rfl hps]; rfl
  | bol => rw [hone rfl hps]; rfl
  | eol => rw [hone rfl hps]; rfl
  | group _ _ => exact absurd rfl (piece_of_plain (t := .lparen) hps (by simp))
  | dup low high _ _ => exact absurd rfl (piece_of_plain (t := .dup low high) hps (by simp))
  | branch _ ih => exact ih hps
  | cat _ _ iha ihb =>
    rw [List.map_append] at hps
    obtain ⟨p, q, rfl, hp, hq⟩ := List.map_eq_append_iff.mp hps.symm
    rw [Ere.pieces, iha hp.symm, ihb hq.symm]
  | whole _ ih => exact ih hps
  | alt _ _ _ _ => exact absurd rfl (piece_of_plain (t := .bar) hps (by simp))

theorem derives_of_plain {ts : List EreToken} (hne : ts ≠ [])
    (hplain : ∀ t ∈ ts, t.piece ≠ none) : ∃ r, Derives .whole ts r := by
  have hone : ∀ {t : EreToken}, t.piece ≠ none → ∃ r, Derives .expression [t] r := by
    intro t ht
    cases t with
    | one m => exact ⟨_, .one m⟩
    | bol => exact ⟨_, .bol⟩
    | eol => exact ⟨_, .eol⟩
    | lparen => exact absurd rfl ht
    | rparen => exact absurd rfl ht
    | bar => exact absurd rfl ht
    | dup low high => exact absurd rfl ht
  suffices h : ∃ r, Derives .branch ts r by
    obtain ⟨r, hr⟩ := h
    exact ⟨r, .whole hr⟩
  induction ts using List.reverseRecOn with
  | nil => exact absurd rfl hne
  | append_singleton ts t ih =>
    obtain ⟨b, hb⟩ := hone (hplain t (by simp))
    by_cases hts : ts = []
    · rw [hts]
      exact ⟨b, .branch hb⟩
    · obtain ⟨a, ha⟩ := ih hts fun u hu => hplain u (by simp [hu])
      exact ⟨_, .cat ha hb⟩

/-! ### Matches -/

/-- The ends of a repetition, the longer ones first; `fuel` bounds the turns. -/
def dupEnds (step : ℕ → List ℕ) : ℕ → ℕ → Option ℕ → ℕ → List ℕ
  | 0, low, _, i => if low = 0 then [i] else []
  | fuel + 1, low, high, i =>
    (if high = some 0 then []
      else (step i).flatMap (dupEnds step fuel (low - 1) (high.map (· - 1)))) ++
      if low = 0 then [i] else []

/-- Where the matches from `i` end, in the order a backtracking matcher tries them. -/
def Ere.ends (text : List ℕ) : Ere → ℕ → List ℕ
  | .one m, i =>
    match text[i]? with
    | none => []
    | some x => if m.accepts x then [i + 1] else []
  | .bol, i => if i = 0 then [i] else []
  | .eol, i => if i = text.length then [i] else []
  | .group r, i => r.ends text i
  | .dup r low high, i => dupEnds (r.ends text) (low + text.length + 1) low high i
  | .cat a b, i => (a.ends text i).flatMap (b.ends text)
  | .alt a b, i => a.ends text i ++ b.ends text i

/-- The leftmost match that a choice among the ends from one start gives. -/
def Ere.search (choose : List ℕ → Option ℕ) (r : Ere) (text : List ℕ) : Option (ℕ × ℕ) :=
  (List.range (text.length + 1)).findSome? fun i => (choose (r.ends text i)).map (i, ·)

/-- First match: the end tried first. -/
def Ere.firstSearch : Ere → List ℕ → Option (ℕ × ℕ) := Ere.search List.head?

/-- Longest match: the greatest end. -/
def Ere.longestSearch : Ere → List ℕ → Option (ℕ × ℕ) := Ere.search List.max?

/-- The matches of expressions one after another. -/
def endsAll (text : List ℕ) : List Ere → ℕ → List ℕ
  | [], i => [i]
  | r :: rs, i => (r.ends text i).flatMap (endsAll text rs)

theorem endsAll_append (text : List ℕ) (rs qs : List Ere) (i : ℕ) :
    endsAll text (rs ++ qs) i = (endsAll text rs i).flatMap (endsAll text qs) := by
  induction rs generalizing i with
  | nil => simp [endsAll]
  | cons r rs ih =>
    rw [List.cons_append, endsAll, endsAll, List.flatMap_assoc]
    exact List.flatMap_congr fun j _ => ih j

/-- How a concatenation is nested does not change its matches. -/
theorem ends_eq_pieces (text : List ℕ) (r : Ere) (i : ℕ) :
    r.ends text i = endsAll text r.pieces i := by
  induction r generalizing i with
  | cat a b iha ihb =>
    rw [Ere.ends, Ere.pieces, endsAll_append, iha]
    exact List.flatMap_congr fun j _ => ihb j
  | one m => simp [Ere.pieces, endsAll]
  | bol => simp [Ere.pieces, endsAll]
  | eol => simp [Ere.pieces, endsAll]
  | group r _ => simp [Ere.pieces, endsAll]
  | dup r low high _ => simp [Ere.pieces, endsAll]
  | alt a b _ _ => simp [Ere.pieces, endsAll]

/-- Two choices that agree on what the expression yields search alike. -/
theorem search_congr {choose choose' : List ℕ → Option ℕ} {r : Ere} {text : List ℕ}
    (h : ∀ i, choose (r.ends text i) = choose' (r.ends text i)) :
    r.search choose text = r.search choose' text := by
  unfold Ere.search
  simp only [h]

/-- A search that chooses whenever it can finds a match when there is one. -/
theorem search_isSome {choose : List ℕ → Option ℕ} (hc : ∀ l, (choose l).isSome = !l.isEmpty)
    {r : Ere} {text : List ℕ} :
    (r.search choose text).isSome = true ↔ ∃ i ≤ text.length, r.ends text i ≠ [] := by
  simp only [Ere.search, List.findSome?_isSome_iff, List.mem_range, Option.isSome_map, hc]
  constructor
  · rintro ⟨i, hi, h⟩
    exact ⟨i, by omega, by simpa using h⟩
  · rintro ⟨i, hi, h⟩
    exact ⟨i, by omega, by simpa using h⟩

end JaroFilter.Lib
