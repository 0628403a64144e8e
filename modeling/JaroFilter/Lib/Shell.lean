import JaroFilter.Lib.Bytes

/-!
# Reading shell text

Quoting with `RC_QUOTES` unset: between single quotes every byte is literal,
outside them a backslash quotes one byte and `#` at the start of a word begins a
comment. A reader that splits a text into words and operators, the words into
statements, and runs declarations and array assignments. Whatever stands
outside quotes and is neither is refused.
-/

namespace JaroFilter.Lib.Shell

/-! ### Quoting -/

/-- Where a byte stands. -/
inductive Place where
  | start | word | quotes | backslash | comment
  deriving DecidableEq, Repr

/-- A byte with the reading quoting gives it. -/
inductive Mark where
  | bare (c : Byte)
  | comment (c : Byte)
  /-- A single quote that opens or closes. -/
  | edge
  | backslash
  | escaped (c : Byte)
  | quoted (c : Byte)
  deriving DecidableEq, Repr

/-- The bytes behind which a new word starts. -/
def isBreak (c : Byte) : Bool := c ∈ cstr " \t\n();&|<>"

def place : Place → Byte → Place × Mark
  | .quotes, c => if c = 39 then (.word, .edge) else (.quotes, .quoted c)
  | .backslash, c => (.word, .escaped c)
  | .comment, c => if c = 10 then (.start, .bare 10) else (.comment, .comment c)
  | p, c =>
    if c = 39 then (.quotes, .edge)
    else if c = 92 then (.backslash, .backslash)
    else if c = 35 ∧ p = .start then (.comment, .comment c)
    else (if isBreak c then .start else .word, .bare c)

def scan : Place → Bytes → Place × List Mark
  | p, [] => (p, [])
  | p, c :: s => ((scan (place p c).1 s).1, (place p c).2 :: (scan (place p c).1 s).2)

/-- What quoting leaves to the shell: bare bytes and comments. -/
def Mark.outside : Mark → Option Byte
  | .bare c => some c
  | .comment c => some c
  | _ => none

/-- What a byte adds to the value of its word. -/
def Mark.value : Mark → Option Byte
  | .bare c => some c
  | .escaped c => some c
  | .quoted c => some c
  | _ => none

/-! ### Words and operators -/

inductive Token where
  | word (w : List Mark)
  | left | right | newline
  deriving DecidableEq, Repr

/-- The tokens ended so far and the word begun, empty between words. -/
structure Lexer where
  out : List Token
  word : List Mark
  deriving DecidableEq, Repr

def Lexer.flush (x : Lexer) : List Token := if x.word = [] then x.out else x.out ++ [.word x.word]

/-- Bare bytes of words that the shell does not interpret. -/
def isPlainBare (c : Byte) : Bool := isAlnum c || c == 95 || c == 45 || c == 43 || c == 61

def lexMark (x : Lexer) : Mark → Option Lexer
  | .bare c =>
    if isBlank c then some ⟨x.flush, []⟩
    else if c = 10 then some ⟨x.flush ++ [.newline], []⟩
    else if c = 40 then some ⟨x.flush ++ [.left], []⟩
    else if c = 41 then some ⟨x.flush ++ [.right], []⟩
    else if isPlainBare c then some ⟨x.out, x.word ++ [.bare c]⟩
    else none
  | .comment _ => some x
  | m => some ⟨x.out, x.word ++ [m]⟩

/-- The tokens of a text that ends outside quotes. -/
def shellTokens (s : Bytes) : Option (List Token) :=
  let x := scan .start s
  if x.1 = .quotes ∨ x.1 = .backslash then none
  else (x.2.foldlM lexMark ⟨[], []⟩).map Lexer.flush

/-! ### Statements -/

inductive Statement where
  | command (words : List Bytes)
  | assign (name : Bytes) (append : Bool) (values : List Bytes)
  deriving DecidableEq, Repr

/-- The text of a word without a quoted byte. -/
def bareText (w : List Mark) : Option Bytes :=
  w.mapM fun m => match m with
    | .bare c => some c
    | _ => none

def wordText (w : List Mark) : Bytes := w.filterMap Mark.value

/-- `name=` or `name+=`. -/
def assignment (w : List Mark) : Option (Bytes × Bool) := do
  let t ← bareText w
  let a := if cstr "+=" <:+ t then (t.take (t.length - 2), true) else (t.take (t.length - 1), false)
  if cstr "=" <:+ t ∧ a.1 ≠ [] ∧ a.1.all (fun c => isAlnum c || c == 95) then some a else none

/-- The words of a list up to its closing parenthesis, which ends the line. -/
def listWords : List Token → Option (List Bytes)
  | [.right] => some []
  | .word w :: ts => (listWords ts).map (wordText w :: ·)
  | _ => none

/-- The words of a command, none of them quoted. -/
def commandWords (ts : List Token) : Option (List Bytes) :=
  ts.mapM fun t => match t with
    | .word w => bareText w
    | _ => none

/-- The statement of a line, if it has one. -/
def statement : List Token → Option (Option Statement)
  | [] => some none
  | .word w :: .left :: ts => do
    let a ← assignment w
    let values ← listWords ts
    some (some (.assign a.1 a.2 values))
  | ts => (commandWords ts).map fun words => some (.command words)

/-- The lines of a text, with the statement of each. -/
def statements (line : List Token) : List Token → Option (List Statement)
  | [] => (statement line).map Option.toList
  | .newline :: ts => do
    let first ← statement line
    let rest ← statements [] ts
    some (first.toList ++ rest)
  | t :: ts => statements (line ++ [t]) ts

/-! ### Running them -/

/-- A shell variable. -/
inductive Variable where
  | array (values : List Bytes)
  | map (entries : List (Bytes × Bytes))
  deriving DecidableEq, Repr

abbrev Env := Bytes → Option Variable

def Env.set (env : Env) (name : Bytes) (v : Option Variable) : Env :=
  fun n => if n = name then v else env n

def Env.setAll (env : Env) (names : List Bytes) (v : Option Variable) : Env :=
  names.foldl (fun env n => env.set n v) env

/-- The keys and values of a map, in turn. -/
def pairs : List Bytes → Option (List (Bytes × Bytes))
  | [] => some []
  | [_] => none
  | k :: v :: rest => (pairs rest).map ((k, v) :: ·)

/-- A key that is there gets the new value. -/
def insertEntry (entries : List (Bytes × Bytes)) (e : Bytes × Bytes) : List (Bytes × Bytes) :=
  if e.1 ∈ entries.map Prod.fst then entries.map fun x => if x.1 = e.1 then e else x else entries ++ [e]

def Variable.assign (append : Bool) (values : List Bytes) : Option Variable → Option Variable
  | none => some (.array values)
  | some (.array old) => some (.array (if append then old ++ values else values))
  | some (.map old) =>
    (pairs values).map fun es => .map (es.foldl insertEntry (if append then old else []))

/-- `unset`, `typeset -ga`, `typeset -gA` and assignments; nothing else runs. -/
def Statement.run (env : Env) : Statement → Option Env
  | .command (name :: args) =>
    if name = cstr "unset" then some (env.setAll args none)
    else if name = cstr "typeset" ∧ args.head? = some (cstr "-ga") then
      some (env.setAll args.tail (some (.array [])))
    else if name = cstr "typeset" ∧ args.head? = some (cstr "-gA") then
      some (env.setAll args.tail (some (.map [])))
    else none
  | .command [] => some env
  | .assign name append values => do
    let v ← Variable.assign append values (env name)
    some (env.set name (some v))

/-- Sources a text. -/
def source (env : Env) (s : Bytes) : Option Env := do
  let ts ← shellTokens s
  let ss ← statements [] ts
  ss.foldlM Statement.run env

/-! ### Texts piece by piece -/

theorem scan_append (p : Place) (s t : Bytes) :
    scan p (s ++ t) = ((scan (scan p s).1 t).1, (scan p s).2 ++ (scan (scan p s).1 t).2) := by
  induction s generalizing p with
  | nil => rfl
  | cons c s ih => simp only [List.cons_append, scan, ih]

def Lexer.after (ts : List Token) (x : Lexer) : Lexer := ⟨ts ++ x.out, x.word⟩

theorem Lexer.flush_after (ts : List Token) (x : Lexer) : (x.after ts).flush = ts ++ x.flush := by
  by_cases h : x.word = [] <;> simp [Lexer.flush, Lexer.after, h]

theorem lexMark_after (ts : List Token) (x : Lexer) (m : Mark) :
    lexMark (x.after ts) m = (lexMark x m).map (Lexer.after ts) := by
  cases m with
  | bare c =>
    simp only [lexMark, Lexer.flush_after]
    repeat' split
    all_goals simp [Lexer.after]
  | comment c => rfl
  | edge => rfl
  | backslash => rfl
  | escaped c => rfl
  | quoted c => rfl

theorem foldlM_lexMark_after (ts : List Token) (x : Lexer) (ms : List Mark) :
    ms.foldlM lexMark (x.after ts) = (ms.foldlM lexMark x).map (Lexer.after ts) := by
  induction ms generalizing x with
  | nil => rfl
  | cons m ms ih =>
    simp only [List.foldlM_cons, lexMark_after]
    cases lexMark x m with
    | none => rfl
    | some y => exact ih y

/-- An escape outside quotes quotes a single quote. -/
def Mark.tame : Mark → Bool
  | .escaped c => c == 39
  | _ => true

/-- A piece of text that begins and ends between words: its tokens, and what of
it stands outside quotes. -/
structure Reads (s : Bytes) (ts : List Token) (o : Bytes) : Prop where
  place : (scan .start s).1 = .start
  tokens : (scan .start s).2.foldlM lexMark ⟨[], []⟩ = some ⟨ts, []⟩
  outside : (scan .start s).2.filterMap Mark.outside = o
  tame : (scan .start s).2.all Mark.tame = true

instance (s : Bytes) (ts : List Token) (o : Bytes) : Decidable (Reads s ts o) :=
  decidable_of_iff (((scan .start s).1 = .start ∧
      (scan .start s).2.foldlM lexMark ⟨[], []⟩ = some ⟨ts, []⟩) ∧
      (scan .start s).2.filterMap Mark.outside = o ∧ (scan .start s).2.all Mark.tame = true)
    ⟨fun h => ⟨h.1.1, h.1.2, h.2.1, h.2.2⟩, fun h => ⟨⟨h.1, h.2⟩, h.3, h.4⟩⟩

theorem Reads.nil : Reads [] [] [] := ⟨rfl, rfl, rfl, rfl⟩

theorem Reads.append {s t : Bytes} {ts us : List Token} {o q : Bytes} (hs : Reads s ts o)
    (ht : Reads t us q) : Reads (s ++ t) (ts ++ us) (o ++ q) := by
  have hscan : scan .start (s ++ t) =
      ((scan .start t).1, (scan .start s).2 ++ (scan .start t).2) := by
    rw [scan_append, hs.place]
  refine ⟨?_, ?_, ?_, ?_⟩
  · rw [hscan]
    exact ht.place
  · rw [hscan]
    simp only [List.foldlM_append, hs.tokens]
    have hafter := foldlM_lexMark_after ts ⟨[], []⟩ (scan .start t).2
    rw [ht.tokens, Lexer.after, List.append_nil] at hafter
    exact hafter
  · rw [hscan, List.filterMap_append, hs.outside, ht.outside]
  · rw [hscan, List.all_append, hs.tame, ht.tame]
    rfl

theorem Reads.flatMap {α : Type} {l : List α} {f : α → Bytes} {g : α → List Token} {k : α → Bytes}
    (h : ∀ x ∈ l, Reads (f x) (g x) (k x)) : Reads (l.flatMap f) (l.flatMap g) (l.flatMap k) := by
  induction l with
  | nil => exact .nil
  | cons x l ih =>
    simp only [List.flatMap_cons]
    exact (h x (by simp)).append (ih fun y hy => h y (by simp [hy]))

theorem Reads.shellTokens {s : Bytes} {ts : List Token} {o : Bytes} (h : Reads s ts o) :
    shellTokens s = some ts := by
  rw [Shell.shellTokens]
  simp only [h.place, h.tokens]
  rfl

/-- Marks that are no bare bytes and no comment belong to the word begun. -/
theorem foldlM_lexMark_solid {ms : List Mark} (h : ∀ m ∈ ms, m.outside = none) (x : Lexer) :
    ms.foldlM lexMark x = some ⟨x.out, x.word ++ ms⟩ := by
  induction ms generalizing x with
  | nil => simp
  | cons m ms ih =>
    have hm : lexMark x m = some ⟨x.out, x.word ++ [m]⟩ := by
      have hsolid := h m (by simp)
      cases m <;> first | rfl | cases hsolid
    simp only [List.foldlM_cons, hm, Option.bind_eq_bind, Option.bind_some,
      ih (fun m hm => h m (by simp [hm]))]
    simp

/-! ### Statements line by line -/

theorem statements_line {ts : List Token} (h : .newline ∉ ts) (line rest : List Token) :
    statements line (ts ++ .newline :: rest) = (do
      let first ← statement (line ++ ts)
      let more ← statements [] rest
      some (first.toList ++ more)) := by
  induction ts generalizing line with
  | nil => simp [statements]
  | cons t ts ih =>
    rw [List.mem_cons, not_or] at h
    have hstep : statements line (t :: (ts ++ .newline :: rest)) =
        statements (line ++ [t]) (ts ++ .newline :: rest) := by
      cases t with
      | newline => exact absurd rfl h.1
      | word w => rfl
      | left => rfl
      | right => rfl
    rw [List.cons_append, hstep, ih h.2, List.append_assoc, List.singleton_append]

theorem listWords_words (ws : List (List Mark)) :
    listWords (ws.map Token.word ++ [.right]) = some (ws.map wordText) := by
  induction ws with
  | nil => rfl
  | cons w ws ih => simp [listWords, ih]

/-! ### Variables -/

theorem setAll_apply (env : Env) (names : List Bytes) (v : Option Variable) (n : Bytes) :
    env.setAll names v n = if n ∈ names then v else env n := by
  induction names generalizing env with
  | nil => simp [Env.setAll]
  | cons m names ih =>
    have hcons : env.setAll (m :: names) v = (env.set m v).setAll names v := rfl
    rw [hcons, ih]
    by_cases hn : n = m <;> by_cases hin : n ∈ names <;> simp [Env.set, hn, hin]

theorem insertEntry_new {entries : List (Bytes × Bytes)} {e : Bytes × Bytes}
    (h : ∀ x ∈ entries, x.1 ≠ e.1) : insertEntry entries e = entries ++ [e] := by
  rw [insertEntry, if_neg]
  intro hmem
  obtain ⟨x, hx, he⟩ := List.mem_map.mp hmem
  exact h x hx he

/-- Plain assignments to declared arrays. -/
theorem run_assigns {l : List (Bytes × List Bytes)} (hl : (l.map Prod.fst).Nodup) {env : Env}
    (h : ∀ x ∈ l, ∃ old, env x.1 = some (.array old)) :
    ∃ env', (l.map fun x => Statement.assign x.1 false x.2).foldlM Statement.run env = some env' ∧
      (∀ x ∈ l, env' x.1 = some (.array x.2)) ∧ ∀ n, n ∉ l.map Prod.fst → env' n = env n := by
  induction l generalizing env with
  | nil => exact ⟨env, rfl, by simp, fun _ _ => rfl⟩
  | cons x l ih =>
    rw [List.map_cons, List.nodup_cons] at hl
    obtain ⟨old, hold⟩ := h x (by simp)
    have hrun : Statement.run env (.assign x.1 false x.2) = some (env.set x.1 (some (.array x.2))) := by
      simp [Statement.run, hold, Variable.assign]
    have hother : ∀ y ∈ l, y.1 ≠ x.1 := fun y hy he => hl.1 (List.mem_map.mpr ⟨y, hy, he⟩)
    obtain ⟨env', hfold, hset, hkeep⟩ := @ih hl.2 (env.set x.1 (some (.array x.2))) fun y hy => by
      obtain ⟨old, hy'⟩ := h y (by simp [hy])
      exact ⟨old, by rw [Env.set, if_neg (hother y hy), hy']⟩
    refine ⟨env', ?_, ?_, ?_⟩
    · simp only [List.map_cons, List.foldlM_cons, hrun, Option.bind_eq_bind, Option.bind_some]
      exact hfold
    · intro y hy
      obtain rfl | hy := List.mem_cons.mp hy
      · rw [hkeep _ hl.1, Env.set, if_pos rfl]
      · exact hset y hy
    · intro n hn
      rw [List.map_cons, List.mem_cons, not_or] at hn
      rw [hkeep n hn.2, Env.set, if_neg hn.1]

/-- A text of statements, each on a line of its own. -/
structure Sources (s : Bytes) (ss : List Statement) (o : Bytes) : Prop where
  reads : ∃ ts, Reads s ts o ∧ ∀ rest, statements [] (ts ++ rest) =
    (statements [] rest).map (ss ++ ·)

theorem Sources.nil : Sources [] [] [] := ⟨[], .nil, fun rest => by simp⟩

theorem Sources.append {s t : Bytes} {ss us : List Statement} {o q : Bytes} (hs : Sources s ss o)
    (ht : Sources t us q) : Sources (s ++ t) (ss ++ us) (o ++ q) := by
  obtain ⟨ts, hreads, hparse⟩ := hs.reads
  obtain ⟨ts', hreads', hparse'⟩ := ht.reads
  refine ⟨ts ++ ts', hreads.append hreads', fun rest => ?_⟩
  rw [List.append_assoc, hparse, hparse', Option.map_map]
  congr 1
  funext x
  simp

theorem Sources.flatMap {α : Type} {l : List α} {f : α → Bytes} {g : α → List Statement}
    {k : α → Bytes} (h : ∀ x ∈ l, Sources (f x) (g x) (k x)) :
    Sources (l.flatMap f) (l.flatMap g) (l.flatMap k) := by
  induction l with
  | nil => exact .nil
  | cons x l ih =>
    simp only [List.flatMap_cons]
    exact (h x (by simp)).append (ih fun y hy => h y (by simp [hy]))

theorem statements_append {line ts : List Token} {ss : List Statement}
    (h : statements line ts = some ss) (hend : ts.getLast? = some .newline) (rest : List Token) :
    statements line (ts ++ rest) = (statements [] rest).map (ss ++ ·) := by
  induction ts generalizing line ss with
  | nil => cases hend
  | cons t ts ih =>
    by_cases ht : t = .newline
    · subst ht
      simp only [statements, Option.bind_eq_bind, Option.bind_eq_some_iff] at h
      obtain ⟨first, hfirst, more, hmore, hss⟩ := h
      simp only [List.cons_append, statements, hfirst, Option.bind_eq_bind, Option.bind_some]
      cases ts with
      | nil =>
        obtain rfl : [] = more := Option.some.inj hmore
        rw [List.append_nil] at hss
        rw [List.nil_append, ← Option.some.inj hss]
        cases statements [] rest <;> rfl
      | cons u us =>
        rw [ih hmore hend, ← Option.some.inj hss]
        cases statements [] rest <;> simp
    · have hstep : ∀ us, statements line (t :: us) = statements (line ++ [t]) us := by
        intro us
        cases t with
        | newline => exact absurd rfl ht
        | word w => rfl
        | left => rfl
        | right => rfl
      have hlast : ts.getLast? = some .newline := by
        cases ts with
        | nil => exact absurd (Option.some.inj hend) ht
        | cons u us => exact hend
      rw [hstep] at h
      rw [List.cons_append, hstep, ih h hlast]

theorem Sources.intro {s : Bytes} {ts : List Token} {ss : List Statement} {o : Bytes}
    (h : Reads s ts o) (hss : statements [] ts = some ss) (hend : ts.getLast? = some .newline) :
    Sources s ss o :=
  ⟨ts, h, statements_append hss hend⟩

theorem Sources.line {s : Bytes} {ts : List Token} {o : Bytes} {x : Statement}
    (h : Reads s (ts ++ [.newline]) o) (hts : .newline ∉ ts) (hx : statement ts = some (some x)) :
    Sources s [x] o := by
  refine ⟨_, h, fun rest => ?_⟩
  rw [List.append_assoc, List.singleton_append, statements_line hts, List.nil_append, hx]
  cases statements [] rest <;> rfl

theorem Sources.source {s : Bytes} {ss : List Statement} {o : Bytes} (h : Sources s ss o) (env : Env) :
    source env s = ss.foldlM Statement.run env := by
  obtain ⟨ts, hreads, hparse⟩ := h.reads
  have hall := hparse []
  rw [List.append_nil] at hall
  have hempty : statements [] [] = some [] := rfl
  rw [hempty, Option.map_some, List.append_nil] at hall
  simp only [Shell.source, hreads.shellTokens, hall, Option.bind_eq_bind, Option.bind_some]

end JaroFilter.Lib.Shell
