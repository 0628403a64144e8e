import JaroFilter.Products.Emit

/-!
# Sieve tokens (`import.c:32-95`)

The lexer of the script reader: blanks, both comment forms, punctuation, quoted
strings and words. `tokenList` is what successive calls of `next` return; it
ends with the end of the script or with the first lexical error.
-/

namespace JaroFilter

open Lib

/-! ### One token -/

/-- A token of the script; `bad` is a lexical error. -/
inductive Token where
  | punct (c : Byte)
  | word (s : Bytes)
  | string (s : Bytes)
  | eof
  | bad (f : Fault)
  deriving DecidableEq, Repr

def isSpace (c : Byte) : Bool := c == 32 || c == 9 || c == 13 || c == 10

/-- One of `{ } [ ] , ;`. -/
def isPunct (c : Byte) : Bool :=
  c == 123 || c == 125 || c == 91 || c == 93 || c == 44 || c == 59

def isWordByte (c : Byte) : Bool := isAlnum c || c == 45 || c == 95

/-- Inside a block comment: what follows its end, and the line there. -/
def skipComment : Bytes → ℕ → Except ℕ (Bytes × ℕ)
  | a :: b :: s, line =>
    if a = 42 ∧ b = 47 then .ok (s, line)
    else skipComment (b :: s) (if a = 10 then line + 1 else line)
  | _, line => .error line

/-- Blanks and comments before a token; `fuel` bounds the number of turns. -/
def skipBlank : ℕ → Bytes → ℕ → Except ℕ (Bytes × ℕ)
  | 0, s, line => .ok (s, line)
  | _, [], line => .ok ([], line)
  | fuel + 1, c :: s, line =>
    if isSpace c then skipBlank fuel s (if c = 10 then line + 1 else line)
    else if c = 35 then skipBlank fuel (s.dropWhile (· != 10)) line
    else if c = 47 ∧ s.head? = some 42 then
      match skipComment s.tail line with
      | .ok (s, line) => skipBlank fuel s line
      | .error line => .error line
    else .ok (c :: s, line)

def importFault (detail : String) : Fault := fault .eSieveImport detail

/-- The string loop (`import.c:60-73`): the value and the rest of the script. -/
def stringBody (limit : ℕ) : Bytes → Bytes → Except Fault (Bytes × Bytes)
  | _, [] => .error (importFault "unterminated quoted string")
  | acc, c :: s =>
    if c = 34 then .ok (acc, s)
    else if c = 92 then
      match s with
      | [] => .error (importFault "truncated quoted pair")
      | e :: s =>
        if e ≠ 34 ∧ e ≠ 92 then
          .error (importFault "unsupported quoted pair; use quote/backslash escaping")
        else if limit ≤ acc.length then .error (fault .eMemory "import allocation/size limit")
        else stringBody limit (acc ++ [e]) s
    else if isControl c then
      .error (importFault "control byte or multiline string unsupported")
    else if limit ≤ acc.length then .error (fault .eMemory "import allocation/size limit")
    else stringBody limit (acc ++ [c]) s

/-- `next` (`import.c:43`): the token with its line, the rest and its line. -/
def next (limit : ℕ) (s : Bytes) (line : ℕ) : (Token × ℕ) × Bytes × ℕ :=
  match skipBlank (s.length + 1) s line with
  | .error line => ((.bad (importFault "unterminated block comment"), line), [], line)
  | .ok ([], line) => ((.eof, line), [], line)
  | .ok (c :: s, line) =>
    if isPunct c then ((.punct c, line), s, line)
    else if c = 34 then
      match stringBody limit [] s with
      | .ok (value, s) => ((.string value, line), s, line)
      | .error f => ((.bad f, line), [], line)
    else
      let value := c :: s.takeWhile isWordByte
      if limit < value.length then
        ((.bad (fault .eMemory "import allocation/size limit"), line), [], line)
      else ((.word value, line), s.dropWhile isWordByte, line)

/-- Successive tokens up to the end or the first error. -/
def tokenList (limit : ℕ) : ℕ → Bytes → ℕ → List (Token × ℕ)
  | 0, _, _ => []
  | fuel + 1, s, line =>
    match next limit s line with
    | ((.eof, l), _, _) => [(.eof, l)]
    | ((.bad f, l), _, _) => [(.bad f, l)]
    | (t, s, line) => t :: tokenList limit fuel s line

/-- All tokens of a script. -/
def tokens (limit : ℕ) (s : Bytes) : List (Token × ℕ) := tokenList limit (s.length + 1) s 1

/-! ### Tokens of a rendered text -/

/-- The script `s` consists of the tokens `ts`, wherever it starts. -/
def Tokenizes (limit : ℕ) (s : Bytes) (ts : List Token) : Prop :=
  ∀ fuel line, s.length < fuel → (tokenList limit fuel s line).map Prod.fst = ts

theorem Tokenizes.tokens {limit : ℕ} {s : Bytes} {ts : List Token} (h : Tokenizes limit s ts) :
    (tokens limit s).map Prod.fst = ts :=
  h _ _ (Nat.lt_succ_self _)

theorem tokenizes_nil (limit : ℕ) : Tokenizes limit [] [.eof] := by
  intro fuel line hf
  cases fuel with
  | zero => exact absurd hf (by simp)
  | succ fuel => simp [tokenList, next, skipBlank]

/-- A blank in front changes no token. -/
theorem next_space {c : Byte} (hc : isSpace c = true) (limit : ℕ) (s : Bytes) (line : ℕ) :
    next limit (c :: s) line = next limit s (if c = 10 then line + 1 else line) := by
  simp only [next, List.length_cons, skipBlank, hc, if_true]

theorem Tokenizes.space {limit : ℕ} {s : Bytes} {ts : List Token} {c : Byte}
    (hc : isSpace c = true) (h : Tokenizes limit s ts) : Tokenizes limit (c :: s) ts := by
  intro fuel line hf
  rw [List.length_cons] at hf
  cases fuel with
  | zero => omega
  | succ fuel =>
    have hs := h (fuel + 1) (if c = 10 then line + 1 else line) (by omega)
    simpa only [tokenList, next_space hc] using hs

theorem Tokenizes.step {limit : ℕ} {s s' : Bytes} {t : Token} {ts : List Token}
    (hnext : ∀ line, ∃ l, next limit s line = ((t, l), s', l)) (hlen : s'.length < s.length)
    (heof : t ≠ .eof) (hbad : ∀ f, t ≠ .bad f) (h : Tokenizes limit s' ts) :
    Tokenizes limit s (t :: ts) := by
  intro fuel line hf
  cases fuel with
  | zero => omega
  | succ fuel =>
    obtain ⟨l, hl⟩ := hnext line
    have hs := h fuel l (by omega)
    cases t with
    | eof => exact absurd rfl heof
    | bad f => exact absurd rfl (hbad f)
    | punct c => simp only [tokenList, hl, List.map_cons, hs]
    | word w => simp only [tokenList, hl, List.map_cons, hs]
    | string v => simp only [tokenList, hl, List.map_cons, hs]

/-- A byte that starts a token is not skipped. -/
theorem skipBlank_token {c : Byte} {s : Bytes} (hsp : isSpace c = false) (h35 : c ≠ 35)
    (h47 : c ≠ 47) (fuel line : ℕ) : skipBlank (fuel + 1) (c :: s) line = .ok (c :: s, line) := by
  simp [skipBlank, hsp, h35, h47]

theorem Tokenizes.punct {limit : ℕ} {s : Bytes} {ts : List Token} {c : Byte}
    (hc : isPunct c = true) (h : Tokenizes limit s ts) :
    Tokenizes limit (c :: s) (.punct c :: ts) := by
  have hall : ∀ c : Byte, isPunct c = true → isSpace c = false ∧ c ≠ 35 ∧ c ≠ 47 := by decide +kernel
  obtain ⟨hsp, h35, h47⟩ := hall c hc
  refine Tokenizes.step (fun line => ⟨line, ?_⟩) (by simp) (by simp) (by simp) h
  simp only [next, List.length_cons, skipBlank_token hsp h35 h47, hc, if_true]

/-- Text a quoted string can carry. -/
def isStringText (v : Bytes) : Bool := v.all fun c => !isControl c

/-- One turn of the string loop. -/
theorem stringBody_cons (limit : ℕ) (acc : Bytes) (c : Byte) (s : Bytes) :
    stringBody limit acc (c :: s) =
      if c = 34 then .ok (acc, s)
      else if c = 92 then
        match s with
        | [] => .error (importFault "truncated quoted pair")
        | e :: s =>
          if e ≠ 34 ∧ e ≠ 92 then
            .error (importFault "unsupported quoted pair; use quote/backslash escaping")
          else if limit ≤ acc.length then .error (fault .eMemory "import allocation/size limit")
          else stringBody limit (acc ++ [e]) s
      else if isControl c then
        .error (importFault "control byte or multiline string unsupported")
      else if limit ≤ acc.length then .error (fault .eMemory "import allocation/size limit")
      else stringBody limit (acc ++ [c]) s :=
  stringBody.eq_def limit acc (c :: s)

theorem stringBody_escape {limit : ℕ} {v : Bytes} (hv : isStringText v = true) (s acc : Bytes)
    (hlen : acc.length + v.length ≤ limit) :
    stringBody limit acc (escape v ++ 34 :: s) = .ok (acc ++ v, s) := by
  induction v generalizing acc with
  | nil => simp [stringBody_cons]
  | cons c v ih =>
    simp only [isStringText, List.all_cons, Bool.and_eq_true] at hv
    simp only [List.length_cons] at hlen
    have hroom : ¬ limit ≤ acc.length := by omega
    have ih := ih hv.2 (acc ++ [c]) (by rw [List.length_append, List.length_singleton]; omega)
    by_cases hc : c = 34 ∨ c = 92
    · have hpair : ¬ (c ≠ 34 ∧ c ≠ 92) := by tauto
      rw [escape_cons_special hc]
      rw [List.cons_append, List.cons_append, stringBody_cons, if_neg (by decide), if_pos rfl]
      simp only [hpair, hroom, if_false, ih, List.append_assoc, List.singleton_append]
    · have hne : c ≠ 34 ∧ c ≠ 92 := by tauto
      have hctl : isControl c = false := by simpa using hv.1
      rw [escape_cons_plain hc]
      rw [List.cons_append, stringBody_cons, if_neg hne.1, if_neg hne.2]
      simp only [hctl, Bool.false_eq_true, hroom, if_false, ih, List.append_assoc,
        List.singleton_append]

theorem Tokenizes.string {limit : ℕ} {s v : Bytes} {ts : List Token}
    (hv : isStringText v = true) (hlen : v.length ≤ limit) (h : Tokenizes limit s ts) :
    Tokenizes limit (quoteSieve v ++ s) (.string v :: ts) := by
  refine Tokenizes.step (fun line => ⟨line, ?_⟩) (by simp [quoteSieve]; omega) (by simp) (by simp) h
  have hbody := stringBody_escape hv s [] (by simpa using hlen)
  simp only [quoteSieve, List.cons_append, List.append_assoc, List.nil_append, next, List.length_cons,
    skipBlank_token (c := 34) (by decide) (by decide) (by decide),
    (by decide : isPunct 34 = false), Bool.false_eq_true, if_false, if_true, hbody]

/-- A word token: its first byte starts no other token. -/
def isWordText (w : Bytes) : Bool :=
  match w with
  | [] => false
  | c :: cs => (isAlnum c || c == 58) && cs.all isWordByte

theorem Tokenizes.word {limit : ℕ} {s w : Bytes} {ts : List Token} (hw : isWordText w = true)
    (hlen : w.length ≤ limit) (hs : ∀ c ∈ s.head?, isWordByte c = false)
    (h : Tokenizes limit s ts) : Tokenizes limit (w ++ s) (.word w :: ts) := by
  cases w with
  | nil => exact absurd hw (by simp [isWordText])
  | cons c cs =>
    simp only [isWordText, Bool.and_eq_true, List.all_eq_true] at hw
    have hall : ∀ c : Byte, (isAlnum c || c == 58) = true →
        isSpace c = false ∧ c ≠ 35 ∧ c ≠ 47 ∧ isPunct c = false ∧ c ≠ 34 := by decide +kernel
    obtain ⟨hsp, h35, h47, hpunct, h34⟩ := hall c hw.1
    have htake : (cs ++ s).takeWhile isWordByte = cs := by
      rw [List.takeWhile_append_of_pos hw.2]
      cases s with
      | nil => simp
      | cons d s =>
        have hd := hs d (by simp)
        simp [hd]
    have hdrop : (cs ++ s).dropWhile isWordByte = s := by
      rw [List.dropWhile_append_of_pos hw.2]
      cases s with
      | nil => rfl
      | cons d s =>
        have hd := hs d (by simp)
        simp [hd]
    refine Tokenizes.step (fun line => ⟨line, ?_⟩) (by simp) (by simp) (by simp) h
    have hlim : ¬ limit < (c :: cs).length := by omega
    simp only [List.cons_append, next, List.length_cons, skipBlank_token hsp h35 h47, hpunct,
      Bool.false_eq_true, if_false, h34, htake, hdrop]
    rw [if_neg (by simpa using hlim)]

/-! ### Pieces -/

/-- A generated script is a sequence of blanks and tokens. -/
inductive Piece where
  | blank (c : Byte)
  | punct (c : Byte)
  | word (s : Bytes)
  | string (s : Bytes)
  deriving DecidableEq, Repr

def Piece.text : Piece → Bytes
  | .blank c => [c]
  | .punct c => [c]
  | .word s => s
  | .string s => quoteSieve s

def Piece.token : Piece → Option Token
  | .blank _ => none
  | .punct c => some (.punct c)
  | .word s => some (.word s)
  | .string s => some (.string s)

def renderPieces (ps : List Piece) : Bytes := ps.flatMap Piece.text

def pieceTokens (ps : List Piece) : List Token := ps.filterMap Piece.token

/-- Every piece reads back as itself. -/
def Piece.Fits (limit : ℕ) : Piece → Prop
  | .blank c => isSpace c = true
  | .punct c => isPunct c = true
  | .word s => isWordText s = true ∧ s.length ≤ limit
  | .string s => isStringText s = true ∧ s.length ≤ limit

/-- A word is not continued by what follows it. -/
def Piece.Apart : Piece → Piece → Prop
  | .word _, .word _ => False
  | _, _ => True

instance : DecidableRel Piece.Apart := fun p q => by
  cases p <;> cases q <;> first | exact isTrue trivial | exact isFalse id

theorem head_of_fits {limit : ℕ} {p : Piece} (hp : p.Fits limit) (hw : ∀ w, p ≠ .word w) (s : Bytes) :
    ∀ c ∈ (p.text ++ s).head?, isWordByte c = false := by
  have hspace : ∀ c : Byte, isSpace c = true → isWordByte c = false := by decide +kernel
  have hpunct : ∀ c : Byte, isPunct c = true → isWordByte c = false := by decide +kernel
  cases p with
  | blank c => simpa [Piece.text] using hspace c hp
  | punct c => simpa [Piece.text] using hpunct c hp
  | word w => exact absurd rfl (hw w)
  | string v => simp [Piece.text, quoteSieve]; decide

/-- A rendered sequence has the tokens of its pieces. -/
theorem tokenizes_render {limit : ℕ} {ps : List Piece} (hf : ∀ p ∈ ps, p.Fits limit)
    (hc : ps.IsChain Piece.Apart) : Tokenizes limit (renderPieces ps) (pieceTokens ps ++ [.eof]) := by
  induction ps with
  | nil => exact tokenizes_nil limit
  | cons p ps ih =>
    have hp := hf p (by simp)
    have ih := ih (fun q hq => hf q (by simp [hq])) hc.tail
    simp only [renderPieces, List.flatMap_cons, pieceTokens] at ih ⊢
    cases p with
    | blank c => exact ih.space hp
    | punct c => exact ih.punct hp
    | string v => exact ih.string hp.1 hp.2
    | word w =>
      refine ih.word hp.1 hp.2 ?_
      cases ps with
      | nil => simp
      | cons q ps =>
        have hq := hf q (by simp)
        have hapart : Piece.Apart (.word w) q := (List.isChain_cons_cons.mp hc).1
        rw [List.flatMap_cons]
        refine head_of_fits hq ?_ _
        rintro v rfl
        exact hapart

end JaroFilter
