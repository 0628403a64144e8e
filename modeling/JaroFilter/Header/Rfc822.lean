import JaroFilter.Policy.Mailbox

/-!
# The bounded address parser (`rfc822.c:83-138`, `498-684`)

A pointer into the header value is the text from it to the terminating NUL, and
the pointer `end` of a span is the number of bytes left there: `s < end` is
`e < s.length`. The loops recurse on the text that is left, so each of them is
a total function.
-/

namespace JaroFilter

open Lib

/-- The nonzero results (`rfc822.h:76`), and a store past the end of the scratch. -/
inductive Stop where
  | boundedSyntax
  | boundedLimit
  | boundedEmit
  | overrun
  deriving DecidableEq, Repr

/-- The guarded store of the two lexers. -/
def store (max : ℕ) (buffer : Bytes) (c : Byte) : Bytes :=
  if buffer.length < max then buffer ++ [c] else buffer

/-- `parse_comment` (`rfc822.c:83`), after the opening parenthesis. -/
def parseComment (commentmax : ℕ) : ℕ → Bytes → Bytes → Option (Bytes × Bytes)
  | level, comment, [] => if level = 0 then some (comment, []) else none
  | level, comment, c :: s =>
    if level = 0 then some (comment, c :: s)
    else if c = 40 then parseComment commentmax (level + 1) (store commentmax comment c) s
    else if c = 41 then
      if level = 1 then some (comment, s)
      else parseComment commentmax (level - 1) (store commentmax comment c) s
    else if c = 92 then
      match s with
      | [] => none
      | d :: s => parseComment commentmax level (store commentmax comment d) s
    else parseComment commentmax level (store commentmax comment c) s

/-- The loop of `parse_quote` (`rfc822.c:118`). -/
def quotedLoop (tokenmax : ℕ) : Bytes → Bytes → Option (Bytes × Bytes)
  | _, [] => none
  | token, c :: s =>
    if c = 34 then some (store tokenmax token c, s)
    else if c = 92 then
      match s with
      | [] => none
      | d :: s => quotedLoop tokenmax (store tokenmax (store tokenmax token c) d) s
    else quotedLoop tokenmax (store tokenmax token c) s

/-- `parse_quote` (`rfc822.c:113`), after the opening quote. -/
def parseQuote (tokenmax : ℕ) (token s : Bytes) : Option (Bytes × Bytes) :=
  quotedLoop tokenmax (store tokenmax token 34) s

theorem parseComment_length {commentmax level : ℕ} {comment comment' s t : Bytes}
    (h : parseComment commentmax level comment s = some (comment', t)) : t.length ≤ s.length := by
  fun_induction parseComment commentmax level comment s <;> simp_all <;> omega

theorem quotedLoop_length {tokenmax : ℕ} {token token' s t : Bytes}
    (h : quotedLoop tokenmax token s = some (token', t)) : t.length < s.length := by
  fun_induction quotedLoop tokenmax token s <;> simp_all <;> omega

theorem parseQuote_length {tokenmax : ℕ} {token token' s t : Bytes}
    (h : parseQuote tokenmax token s = some (token', t)) : t.length < s.length :=
  quotedLoop_length h

/-- `bounded_cfws` (`rfc822.c:503`), its loop over blanks and comments as one. -/
def boundedCfws : Bytes → Option Bytes
  | [] => some []
  | c :: s =>
    if isBlank c then boundedCfws s
    else if c = 40 then
      match _hc : parseComment 0 1 [] s with
      | none => none
      | some (_, t) => boundedCfws t
    else some (c :: s)
termination_by s => s.length
decreasing_by
  · simp
  · have := parseComment_length _hc
    simp only [List.length_cons]
    omega

theorem boundedCfws_length {s t : Bytes} (h : boundedCfws s = some t) : t.length ≤ s.length := by
  fun_induction boundedCfws s with
  | case1 => simp_all
  | case2 c s _ ih =>
    have := ih h
    simp only [List.length_cons]
    omega
  | case3 => simp at h
  | case4 s comment u hc _ ih =>
    have := ih h
    have := parseComment_length hc
    simp only [List.length_cons]
    omega
  | case5 => simp_all

theorem boundedCfws_paren_length {s t : Bytes} (h : boundedCfws (40 :: s) = some t) :
    t.length ≤ s.length := by
  rw [boundedCfws, if_neg (by decide), if_pos rfl] at h
  split at h
  · simp at h
  · next u hc => exact (boundedCfws_length h).trans (parseComment_length hc)

/-- The bytes that end a span: `,`, `;`, `:`, `<` and `>`. -/
def isStop (c : Byte) : Bool := c == 44 || c == 59 || c == 58 || c == 60 || c == 62

/-- `bounded_boundary` (`rfc822.c:521`). -/
def boundedBoundary (capacity : ℕ) : Bytes → Option Bytes
  | [] => some []
  | c :: s =>
    if isStop c then some (c :: s)
    else if c = 40 then
      match _hc : boundedCfws (40 :: s) with
      | none => none
      | some t => boundedBoundary capacity t
    else if c = 34 then
      match _hc : parseQuote (capacity - 1) [] s with
      | none => none
      | some (_, t) => boundedBoundary capacity t
    else boundedBoundary capacity s
termination_by s => s.length
decreasing_by
  · have := boundedCfws_paren_length _hc
    simp only [List.length_cons]
    omega
  · have := parseQuote_length _hc
    simp only [List.length_cons]
    omega
  · simp

theorem boundedBoundary_length {capacity : ℕ} {s t : Bytes} (h : boundedBoundary capacity s = some t) :
    t.length ≤ s.length := by
  fun_induction boundedBoundary capacity s with
  | case1 => simp_all
  | case2 => simp_all
  | case3 => simp at h
  | case4 s u hc _ ih =>
    have := ih h
    have := boundedCfws_paren_length hc
    simp only [List.length_cons]
    omega
  | case5 => simp at h
  | case6 s token u hc _ _ ih =>
    have := ih h
    have := parseQuote_length hc
    simp only [List.length_cons]
    omega
  | case7 c s _ _ _ ih =>
    have := ih h
    simp only [List.length_cons]
    omega

/-! ### Phrases -/

/-- An atom byte or a dot, as a phrase admits them. -/
def isPhraseByte (c : Byte) : Bool := isAtext c || c == 46

/-- The inner loop of `bounded_phrase` (`rfc822.c:559`). -/
def skipWord (e : ℕ) : Bytes → Bytes
  | [] => []
  | c :: s => if e < s.length + 1 ∧ isPhraseByte c then skipWord e s else c :: s

theorem skipWord_length (e : ℕ) (s : Bytes) : (skipWord e s).length ≤ s.length := by
  fun_induction skipWord e s <;> simp_all; omega

/-- `bounded_phrase` (`rfc822.c:541`). -/
def boundedPhrase (capacity e : ℕ) (tokens : ℕ) (s : Bytes) : Bool :=
  if s.length ≤ e then decide (tokens ≠ 0)
  else
    match _ht : boundedCfws s with
    | none => false
    | some [] => if 0 < e then false else decide (tokens ≠ 0)
    | some (c :: t) =>
      if t.length + 1 < e then false
      else if t.length + 1 = e then decide (tokens ≠ 0)
      else if c = 34 then
        match _hq : parseQuote (capacity - 1) [] t with
        | none => false
        | some (_, u) => if u.length < e then false else boundedPhrase capacity e (tokens + 1) u
      else if !isPhraseByte c then false
      else boundedPhrase capacity e (tokens + 1) (skipWord e t)
termination_by s.length
decreasing_by
  · have := boundedCfws_length _ht
    have := parseQuote_length _hq
    simp only [List.length_cons] at *
    omega
  · have := boundedCfws_length _ht
    have := skipWord_length e t
    simp only [List.length_cons] at *
    omega

/-! ### Addr-specs -/

/-- `scratch[length++] = c`. -/
def push (capacity : ℕ) (out : Bytes) (c : Byte) : Except Stop Bytes :=
  if out.length < capacity then .ok (out ++ [c]) else .error .overrun

/-- A loop of `bounded_spec` over the bytes of one class (`rfc822.c:587`, `607`). -/
def boundedRun (capacity : ℕ) (cls : Byte → Bool) (e : ℕ) :
    Bytes → Bytes → Except Stop (Bytes × Bytes)
  | out, [] => .ok (out, [])
  | out, c :: s =>
    if e < s.length + 1 ∧ cls c then
      match push capacity out c with
      | .error r => .error r
      | .ok out => boundedRun capacity cls e out s
    else .ok (out, c :: s)

theorem boundedRun_length {capacity e : ℕ} {cls : Byte → Bool} {out out' s t : Bytes}
    (h : boundedRun capacity cls e out s = .ok (out', t)) : t.length ≤ s.length := by
  fun_induction boundedRun capacity cls e out s <;> simp_all
  omega

/-- The loops over dot-separated runs in `bounded_spec` (`rfc822.c:584-599`,
`602-616`), from the first byte of a run. -/
def dotLoop (capacity : ℕ) (cls : Byte → Bool) (e : ℕ) (out s : Bytes) :
    Except Stop (Bytes × Bytes) :=
  match _hr : boundedRun capacity cls e out s with
  | .error r => .error r
  | .ok (run, t) =>
    if run.length = out.length then .error .boundedSyntax
    else
      match _hu : boundedCfws t with
      | none => .error .boundedSyntax
      | some [] => if 0 < e then .error .boundedSyntax else .ok (run, [])
      | some (c :: u) =>
        if u.length + 1 < e then .error .boundedSyntax
        else if u.length + 1 = e ∨ c ≠ 46 then .ok (run, c :: u)
        else
          match push capacity run c with
          | .error r => .error r
          | .ok run =>
            match _hv : boundedCfws u with
            | none => .error .boundedSyntax
            | some v =>
              if v.length ≤ e then .error .boundedSyntax else dotLoop capacity cls e run v
termination_by s.length
decreasing_by
  have := boundedRun_length _hr
  have := boundedCfws_length _hu
  have := boundedCfws_length _hv
  simp only [List.length_cons] at *
  omega

/-- The local part (`rfc822.c:577-599`), after the leading blanks. -/
def localPart (capacity e : ℕ) (s : Bytes) : Except Stop (Bytes × Bytes) :=
  if s.head? = some 34 then
    match parseQuote (capacity - 1) [] s.tail with
    | none => .error .boundedSyntax
    | some (token, t) =>
      if t.length < e then .error .boundedSyntax
      else
        match boundedCfws t with
        | none => .error .boundedSyntax
        | some u => .ok (token, u)
  else dotLoop capacity isAtext e [] s

/-- The domain (`rfc822.c:602-616`), after the `@`. -/
def domainPart (capacity e : ℕ) (out s : Bytes) : Except Stop (Bytes × Bytes) :=
  match boundedCfws s with
  | none => .error .boundedSyntax
  | some t => if t.length ≤ e then .error .boundedSyntax else dotLoop capacity isLdh e out t

/-- What `bounded_spec` leaves in the scratch before it emits. -/
def specText (capacity e : ℕ) (s : Bytes) : Except Stop Bytes :=
  match boundedCfws s with
  | none => .error .boundedSyntax
  | some s =>
    if s.length ≤ e then .error .boundedSyntax
    else
      match localPart capacity e s with
      | .error r => .error r
      | .ok (out, s) =>
        if s.length ≤ e ∨ s.head? ≠ some 64 then .error .boundedSyntax
        else
          match push capacity out 64 with
          | .error r => .error r
          | .ok out =>
            match domainPart capacity e out s.tail with
            | .error r => .error r
            | .ok (out, s) =>
              if s.length ≠ e then .error .boundedSyntax
              -- `scratch[length] = 0`
              else if out.length < capacity then .ok out
              else .error .overrun

/-- The emitter with its context: whether it takes a mailbox after those it was given. -/
abbrev Emit := List Bytes → Bytes → Bool

/-- `bounded_spec` (`rfc822.c:567`): the mailboxes given to the emitter, and the result. -/
def boundedSpec (capacity : ℕ) (emit : Emit) (sent : List Bytes) (e : ℕ) (s : Bytes) :
    List Bytes × Except Stop Unit :=
  match specText capacity e s with
  | .error r => (sent, .error r)
  | .ok out => (sent ++ [out], if emit sent out then .ok () else .error .boundedEmit)

/-! ### Mailboxes, groups and lists -/

/-- The angle address of a mailbox (`rfc822.c:628-638`), from the span `s` before `<`. -/
def angleMailbox (capacity : ℕ) (emit : Emit) (sent : List Bytes) (s stop : Bytes) :
    List Bytes × Except Stop Bytes :=
  match boundedCfws s with
  | none => (sent, .error .boundedSyntax)
  | some start =>
    if start.length ≠ stop.length ∧ boundedPhrase capacity stop.length 0 start = false then
      (sent, .error .boundedSyntax)
    else
      match boundedBoundary capacity stop.tail with
      | none => (sent, .error .boundedSyntax)
      | some close =>
        if close.head? ≠ some 62 then (sent, .error .boundedSyntax)
        else
          match boundedSpec capacity emit sent close.length stop.tail with
          | (sent, .error r) => (sent, .error r)
          | (sent, .ok ()) =>
            match boundedCfws close.tail with
            | none => (sent, .error .boundedSyntax)
            | some after =>
              if after ≠ [] ∧ after.head? ≠ some 44 ∧ after.head? ≠ some 59 then
                (sent, .error .boundedSyntax)
              else (sent, .ok after)

/-- `bounded_mailbox` (`rfc822.c:620`): the result is the cursor. -/
def boundedMailbox (capacity : ℕ) (emit : Emit) (sent : List Bytes) (s : Bytes) :
    List Bytes × Except Stop Bytes :=
  match boundedBoundary capacity s with
  | none => (sent, .error .boundedSyntax)
  | some stop =>
    if stop.head? = some 58 ∨ stop.head? = some 62 then (sent, .error .boundedSyntax)
    else if stop.head? = some 60 then angleMailbox capacity emit sent s stop
    else
      match boundedSpec capacity emit sent stop.length s with
      | (sent, .error r) => (sent, .error r)
      | (sent, .ok ()) => (sent, .ok stop)

theorem boundedMailbox_length {capacity : ℕ} {emit : Emit} {sent sent' : List Bytes} {s t : Bytes}
    (h : boundedMailbox capacity emit sent s = (sent', .ok t)) : t.length ≤ s.length := by
  unfold boundedMailbox at h
  split at h
  · simp at h
  · next stop hs =>
    have hstop := boundedBoundary_length hs
    split at h
    · simp at h
    · split at h
      · unfold angleMailbox at h
        split at h
        · simp at h
        · split at h
          · simp at h
          · split at h
            · simp at h
            · next close hclose =>
              have hc := boundedBoundary_length hclose
              split at h
              · simp at h
              · split at h
                · simp at h
                · split at h
                  · simp at h
                  · next after hafter =>
                    have ha := boundedCfws_length hafter
                    split at h
                    · simp at h
                    · simp only [Prod.mk.injEq, Except.ok.injEq] at h
                      rw [← h.2]
                      simp only [List.length_tail] at hc ha
                      omega
      · split at h
        · simp at h
        · simp only [Prod.mk.injEq, Except.ok.injEq] at h
          rw [← h.2]
          exact hstop

/-- The mailboxes of a group (`rfc822.c:662-670`): the result is at the semicolon. -/
def memberLoop (capacity : ℕ) (emit : Emit) (sent : List Bytes) (s : Bytes) :
    List Bytes × Except Stop Bytes :=
  match _hm : boundedMailbox capacity emit sent s with
  | (sent, .error r) => (sent, .error r)
  | (sent, .ok []) => (sent, .error .boundedSyntax)
  | (sent, .ok (c :: t)) =>
    if c = 59 then (sent, .ok (c :: t))
    else if c ≠ 44 then (sent, .error .boundedSyntax)
    else
      match _hu : boundedCfws t with
      | none => (sent, .error .boundedSyntax)
      | some u =>
        if u = [] ∨ u.head? = some 59 then (sent, .error .boundedSyntax)
        else memberLoop capacity emit sent u
termination_by s.length
decreasing_by
  have := boundedMailbox_length _hm
  have := boundedCfws_length _hu
  simp only [List.length_cons] at *
  omega

/-- A group (`rfc822.c:658-673`) from its phrase on, with `stop` at the colon. -/
def boundedGroup (capacity : ℕ) (emit : Emit) (sent : List Bytes) (s stop : Bytes) :
    List Bytes × Except Stop Bytes :=
  if boundedPhrase capacity stop.length 0 s = false then (sent, .error .boundedSyntax)
  else
    match boundedCfws stop.tail with
    | none => (sent, .error .boundedSyntax)
    | some t =>
      match if t.head? = some 59 then (sent, .ok t) else memberLoop capacity emit sent t with
      | (sent, .error r) => (sent, .error r)
      | (sent, .ok t) =>
        match boundedCfws t.tail with
        | none => (sent, .error .boundedSyntax)
        | some u => (sent, .ok u)

/-- A group or a mailbox, as the boundary tells. -/
def boundedItem (capacity : ℕ) (emit : Emit) (sent : List Bytes) (s : Bytes) :
    List Bytes × Except Stop Bytes :=
  match boundedBoundary capacity s with
  | none => (sent, .error .boundedSyntax)
  | some stop =>
    if stop.head? = some 58 then boundedGroup capacity emit sent s stop
    else boundedMailbox capacity emit sent s

theorem memberLoop_length {capacity : ℕ} {emit : Emit} {sent sent' : List Bytes} {s t : Bytes}
    (h : memberLoop capacity emit sent s = (sent', .ok t)) : t.length ≤ s.length := by
  fun_induction memberLoop capacity emit sent s with
  | case1 => simp at h
  | case2 => simp at h
  | case3 sent s sent1 t1 hm =>
    have := boundedMailbox_length hm
    simp only [Prod.mk.injEq, Except.ok.injEq] at h
    rw [← h.2]
    exact this
  | case4 => simp at h
  | case5 => simp at h
  | case6 => simp at h
  | case7 sent s sent1 c t1 hm hc hcomma u hu hne ih =>
    have := ih h
    have := boundedMailbox_length hm
    have := boundedCfws_length hu
    simp only [List.length_cons] at *
    omega

theorem boundedGroup_length {capacity : ℕ} {emit : Emit} {sent sent' : List Bytes}
    {s stop t : Bytes} (h : boundedGroup capacity emit sent s stop = (sent', .ok t)) :
    t.length ≤ stop.length := by
  unfold boundedGroup at h
  split at h
  · simp at h
  · split at h
    · simp at h
    · next t1 ht1 =>
      have h1 := boundedCfws_length ht1
      split at h
      · simp at h
      · next sent2 t2 ht2 =>
        have h2 : t2.length ≤ t1.length := by
          split at ht2
          · simp only [Prod.mk.injEq, Except.ok.injEq] at ht2
            rw [ht2.2]
          · exact memberLoop_length ht2
        split at h
        · simp at h
        · next u hu =>
          have h3 := boundedCfws_length hu
          simp only [Prod.mk.injEq, Except.ok.injEq] at h
          rw [← h.2]
          simp only [List.length_tail] at h1 h3
          omega

theorem boundedItem_length {capacity : ℕ} {emit : Emit} {sent sent' : List Bytes} {s t : Bytes}
    (h : boundedItem capacity emit sent s = (sent', .ok t)) : t.length ≤ s.length := by
  unfold boundedItem at h
  split at h
  · simp at h
  · next stop hs =>
    split at h
    · exact (boundedGroup_length h).trans (boundedBoundary_length hs)
    · exact boundedMailbox_length h

/-- The loop of `rfc822_parse_mailboxes` (`rfc822.c:653-683`). -/
def mailboxesLoop (capacity : ℕ) (emit : Emit) (sent : List Bytes) (s : Bytes) :
    List Bytes × Except Stop Unit :=
  match _hi : boundedItem capacity emit sent s with
  | (sent, .error r) => (sent, .error r)
  | (sent, .ok []) => (sent, .ok ())
  | (sent, .ok (c :: t)) =>
    if c ≠ 44 then (sent, .error .boundedSyntax)
    else
      match _hu : boundedCfws t with
      | none => (sent, .error .boundedSyntax)
      | some u =>
        if u = [] then (sent, .error .boundedSyntax) else mailboxesLoop capacity emit sent u
termination_by s.length
decreasing_by
  have := boundedItem_length _hi
  have := boundedCfws_length _hu
  simp only [List.length_cons] at *
  omega

/-- `rfc822_parse_mailboxes` (`rfc822.c:644`): the mailboxes given to the
emitter, also before a failure, and the result. -/
def rfc822ParseMailboxes (capacity : ℕ) (emit : Emit) (input : Bytes) :
    List Bytes × Except Stop Unit :=
  if capacity ≤ input.length then ([], .error .boundedLimit)
  else if 0 ∈ input then ([], .error .boundedSyntax)
  else
    match boundedCfws input with
    | none => ([], .error .boundedSyntax)
    | some s => if s = [] then ([], .error .boundedSyntax) else mailboxesLoop capacity emit [] s

/-- The emitter that takes every mailbox. -/
def emitAll : Emit := fun _ _ => true

end JaroFilter
