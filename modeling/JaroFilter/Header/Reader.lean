import JaroFilter.Header.Mailboxes
import JaroFilter.Policy.Classify
import JaroFilter.Digest

/-!
# The header reader (`headers.c:96-264`)

A state machine over the bytes of a message. Allocations succeed; the three
scratch buffers are lists, and `value` holds the first `value_size` bytes of
its buffer. The diagnostic line of a failure is `field_line`.
-/

namespace JaroFilter

open Lib

/-! ### Fields -/

/-- `struct header_parser`, with the message of its `struct jf_headers`. -/
structure HeaderParser where
  message : Message
  value : Bytes
  valueSize : ℕ
  line : ℕ
  fieldLine : ℕ
  field : ℕ
  active : Bool

/-- `fail` (`headers.c:51`) for the content errors, all of status 7. -/
def HeaderParser.fail (p : HeaderParser) (code : Code) (detail : String) : Failure :=
  ⟨7, ⟨code, none, p.fieldLine, cstr detail⟩⟩

/-- `emit_address` (`headers.c:96`): whether the mailbox is taken. -/
def emitAddress : Emit := fun _ mailbox =>
  validUtf8 mailbox && validMailbox mailbox && (normalizeMailbox mailbox).isSome

/-- The diagnostic of a mailbox that is not taken. -/
def emitDetail (mailbox : Bytes) : String :=
  if validUtf8 mailbox = false ∨ validMailbox mailbox = false then
    "unsupported/invalid mailbox domain or local part"
  else "unsupported/empty local part"

/-- The entry of a taken mailbox. -/
def storeAddress (field : ℕ) (mailbox : Bytes) : Mailbox :=
  ⟨field, (normalizeMailbox mailbox).getD mailbox⟩

/-- `store_value` (`headers.c:119`). -/
def storeValue (m : Message) (value : Bytes) (spam : Bool) : Message :=
  if spam then { m with spamFlags := m.spamFlags ++ [value] }
  else { m with senders := m.senders ++ [value] }

/-- `finish_field` (`headers.c:133`). -/
def finishField (p : HeaderParser) : Except Failure Message :=
  if p.active = false ∨ p.field = 0 then .ok p.message
  else if p.field = fieldSpam then .ok (storeValue p.message p.value true)
  else if validUtf8 p.value = false then
    .error (p.fail .eMessageAddress "invalid UTF8 in address field")
  else
    match rfc822ParseMailboxes (lineMax + 1) emitAddress p.value with
    | (sent, .error .boundedEmit) =>
      .error (p.fail .eMessageAddress (emitDetail (sent.getLast?.getD [])))
    | (_, .error _) => .error (p.fail .eMessageAddress "malformed/unsupported address list")
    | (sent, .ok ()) =>
      let m := { p.message with
        addresses := p.message.addresses ++ sent.map (storeAddress p.field) }
      .ok (if p.field = fieldSender then storeValue m p.value false else m)

/-- The field a name selects, by `name_is` (`headers.c:149`); 0 for the others. -/
def fieldOf (name : Bytes) : ℕ :=
  if foldBytes name = cstr "from" then fieldFrom
  else if foldBytes name = cstr "sender" then fieldSender
  else if foldBytes name = cstr "to" then fieldTo
  else if foldBytes name = cstr "cc" then fieldCc
  else if foldBytes name = cstr "x-spam-flag" then fieldSpam
  else 0

/-- The end of `line` (`headers.c:185-187`): text joins the field. -/
def appendValue (p : HeaderParser) (s : Bytes) : Except Failure HeaderParser :=
  if lineMax - p.valueSize < s.length then
    .error (p.fail .eMessageLimit "unfolded field exceeds 64 KiB")
  else .ok { p with
    value := if p.field ≠ 0 then p.value ++ s else p.value
    valueSize := p.valueSize + s.length }

/-- A line that continues the field before it. -/
def isFolded (s : Bytes) : Bool := s.head?.any isBlank

/-- `line` (`headers.c:161`): one physical line without its ending. -/
def headerLine (p : HeaderParser) (s : Bytes) : Except Failure HeaderParser :=
  let line := p.line + 1
  if isFolded s then
    if p.active = false then
      .error ({ p with fieldLine := line }.fail .eMessageHeader "orphan continuation")
    else appendValue { p with line } s
  else do
    let message ← finishField p
    let name := s.takeWhile (· != 58)
    let p : HeaderParser := ⟨message, [], 0, line, line, 0, true⟩
    if name.any fun c => c < 33 || 126 < c then
      .error (p.fail .eMessageHeader "invalid header field name")
    else if name = [] ∨ name.length = s.length then
      .error (p.fail .eMessageHeader "missing header colon/name")
    else appendValue { p with field := fieldOf name } (s.drop (name.length + 1))

/-! ### Bytes -/

/-- The locals of `parse` (`headers.c:206`) between two bytes. -/
structure Scan where
  parser : HeaderParser
  physical : Bytes
  wireSize : ℕ
  hash : Sha256

/-- The failures of `parse` itself are on the line after the last finished one. -/
def Scan.fail (l : Scan) (code : Code) (detail : String) : Failure :=
  { l.parser with fieldLine := l.parser.line + 1 }.fail code detail

/-- What `jf_headers_message`, `jf_headers_wire_size` and `jf_headers_digest` return. -/
structure MessageHeaders where
  message : Message
  wireSize : ℕ
  wireDigest : Bytes
  deriving DecidableEq, Repr

/-- After a byte: the loop goes on, or the empty line was read. -/
inductive Progress where
  | more (l : Scan)
  | done (h : MessageHeaders)

/-- The body of the loop of `parse` (`headers.c:229-247`) for one byte. -/
def headerByte (l : Scan) (byte : Byte) : Except Failure Progress :=
  let wireSize := l.wireSize + 1
  let hash := sha256Update l.hash [byte]
  if headersMax < wireSize then .error (l.fail .eMessageLimit "headers exceed 1 MiB")
  else if byte = 10 then
    let physical := chopCr l.physical
    if lineMax < physical.length then
      .error (l.fail .eMessageLimit "physical header line exceeds 64 KiB")
    else if physical = [] then
      (finishField l.parser).map fun m => .done ⟨m, wireSize, sha256Hex hash⟩
    else (headerLine l.parser physical).map fun p => .more ⟨p, [], wireSize, hash⟩
  else if (byte < 32 ∧ byte ≠ 9 ∧ byte ≠ 13) ∨ byte = 127 ∨ l.physical.getLast? = some 13 then
    .error (l.fail .eMessageText "NUL/control byte or bare CR in header")
  else if l.physical.length = lineMax + 1 then
    .error (l.fail .eMessageLimit "physical header line exceeds 64 KiB")
  else .ok (.more ⟨l.parser, l.physical ++ [byte], wireSize, hash⟩)

/-! ### Input -/

/-- What one `read` does: bytes (none at the end of the file), `EINTR`, or another error. -/
inductive ReadResult where
  | chunk (data : Bytes)
  | interrupted
  | failed
  deriving DecidableEq, Repr

/-- `struct input`: the buffered bytes not yet taken, and the reads to come. -/
structure Input where
  data : Bytes
  streaming : Bool
  reads : List ReadResult

inductive Next where
  | byte (c : Byte) (input : Input)
  | ended
  | failed

/-- The refill of `next` (`headers.c:197-199`), past interrupted reads. -/
def refill : List ReadResult → Next
  | [] => .ended
  | .interrupted :: reads => refill reads
  | .failed :: _ => .failed
  | .chunk [] :: _ => .ended
  | .chunk (c :: data) :: reads => .byte c ⟨data, true, reads⟩

/-- `next` (`headers.c:192`). -/
def Input.next (i : Input) : Next :=
  match i.data with
  | c :: data => .byte c { i with data }
  | [] => if i.streaming then refill i.reads else .ended

/-- A failure of the reader: one with a code of `struct jf_error`, or
`E_MESSAGE_IO` (status 3) at a line. -/
inductive ReadFailure where
  | refused (f : Failure)
  | io (line : ℕ)
  deriving DecidableEq, Repr

def ReadResult.size : ReadResult → ℕ
  | .chunk data => data.length
  | _ => 0

/-- The bytes an input can still give. -/
def Input.size (i : Input) : ℕ := i.data.length + (i.reads.map ReadResult.size).sum

theorem refill_size {reads : List ReadResult} {c : Byte} {i : Input}
    (h : refill reads = .byte c i) : i.size < (reads.map ReadResult.size).sum := by
  fun_induction refill reads with
  | case1 => cases h
  | case2 reads ih => simpa [ReadResult.size] using ih h
  | case3 => cases h
  | case4 => cases h
  | case5 c' data reads =>
    cases h
    simp [Input.size, ReadResult.size]

theorem Input.next_size {i j : Input} {c : Byte} (h : i.next = .byte c j) : j.size < i.size := by
  unfold Input.next at h
  split at h
  · next data hdata =>
    cases h
    simp [Input.size, hdata]
  · split at h
    · exact Nat.lt_of_lt_of_le (refill_size h) (Nat.le_add_left _ _)
    · cases h

/-- The loop of `parse` (`headers.c:225`). -/
def parseLoop (l : Scan) (i : Input) : Except ReadFailure MessageHeaders :=
  match _h : i.next with
  | .ended => .error (.refused (l.fail .eMessageTruncated "missing header/body separator"))
  | .failed => .error (.io (l.parser.line + 1))
  | .byte c j =>
    match headerByte l c with
    | .error f => .error (.refused f)
    | .ok (.done r) => .ok r
    | .ok (.more l) => parseLoop l j
termination_by i.size
decreasing_by exact Input.next_size _h

/-- The locals of `parse` before the loop. -/
def scanStart : Scan := ⟨⟨⟨[], [], []⟩, [], 0, 0, 0, 0, false⟩, [], 0, sha256Init⟩

/-- `jf_headers_parse` (`headers.c:252`). -/
def headersParse (data : Bytes) : Except ReadFailure MessageHeaders :=
  parseLoop scanStart ⟨data, false, []⟩

/-- `jf_headers_read` (`headers.c:261`). -/
def headersRead (reads : List ReadResult) : Except ReadFailure MessageHeaders :=
  parseLoop scanStart ⟨[], true, reads⟩

/-! ### The bytes of an input -/

/-- How the bytes of an input end. -/
inductive Ending where
  | ended
  | failed
  deriving DecidableEq, Repr

/-- The bytes the reads give before the first end of file or failure. -/
def received : List ReadResult → Bytes × Ending
  | [] => ([], .ended)
  | .interrupted :: reads => received reads
  | .failed :: _ => ([], .failed)
  | .chunk [] :: _ => ([], .ended)
  | .chunk (c :: data) :: reads => (c :: data ++ (received reads).1, (received reads).2)

/-- The bytes of an input. -/
def Input.bytes (i : Input) : Bytes × Ending :=
  if i.streaming then (i.data ++ (received i.reads).1, (received i.reads).2) else (i.data, .ended)

theorem Input.next_bytes (i : Input) :
    (∃ c j, i.next = .byte c j ∧ i.bytes = (c :: j.bytes.1, j.bytes.2)) ∨
      (i.next = .ended ∧ i.bytes = ([], .ended)) ∨ (i.next = .failed ∧ i.bytes = ([], .failed)) := by
  obtain ⟨data, streaming, reads⟩ := i
  cases data with
  | cons c data => exact Or.inl ⟨c, ⟨data, streaming, reads⟩, rfl, by cases streaming <;> rfl⟩
  | nil =>
    cases streaming with
    | false => exact Or.inr (Or.inl ⟨rfl, rfl⟩)
    | true =>
      simp only [Input.next, Input.bytes, if_true, List.nil_append]
      fun_induction refill reads with
      | case1 => exact Or.inr (Or.inl ⟨rfl, rfl⟩)
      | case2 reads ih => exact ih
      | case3 => exact Or.inr (Or.inr ⟨rfl, rfl⟩)
      | case4 => exact Or.inr (Or.inl ⟨rfl, rfl⟩)
      | case5 c data reads => exact Or.inl ⟨c, _, rfl, rfl⟩

/-- The loop over a list of bytes, up to the first that ends it. -/
def feed : Scan → Bytes → Except Failure Progress
  | l, [] => .ok (.more l)
  | l, c :: s =>
    match headerByte l c with
    | .ok (.more l) => feed l s
    | x => x

/-- What the loop returns where its bytes end. -/
def conclude (e : Ending) : Except Failure Progress → Except ReadFailure MessageHeaders
  | .error f => .error (.refused f)
  | .ok (.done r) => .ok r
  | .ok (.more l) =>
    match e with
    | .ended => .error (.refused (l.fail .eMessageTruncated "missing header/body separator"))
    | .failed => .error (.io (l.parser.line + 1))

/-- The loop sees the bytes of the input, not how they were read. -/
theorem parseLoop_eq (l : Scan) (i : Input) :
    parseLoop l i = conclude i.bytes.2 (feed l i.bytes.1) := by
  fun_induction parseLoop l i with
  | case1 l i h =>
    rcases i.next_bytes with ⟨c, j, hn, hb⟩ | ⟨hn, hb⟩ | ⟨hn, hb⟩ <;> simp_all [feed, conclude]
  | case2 l i h =>
    rcases i.next_bytes with ⟨c, j, hn, hb⟩ | ⟨hn, hb⟩ | ⟨hn, hb⟩ <;> simp_all [feed, conclude]
  | case3 l i c j h f hf =>
    rcases i.next_bytes with ⟨c', j', hn, hb⟩ | ⟨hn, hb⟩ | ⟨hn, hb⟩ <;> simp_all [feed, conclude]
  | case4 l i c j h r hr =>
    rcases i.next_bytes with ⟨c', j', hn, hb⟩ | ⟨hn, hb⟩ | ⟨hn, hb⟩ <;> simp_all [feed, conclude]
  | case5 l i c j h l' hl ih =>
    rcases i.next_bytes with ⟨c', j', hn, hb⟩ | ⟨hn, hb⟩ | ⟨hn, hb⟩ <;> simp_all [feed]

theorem feed_append (l : Scan) (x y : Bytes) :
    feed l (x ++ y) = match feed l x with
      | .ok (.more l) => feed l y
      | r => r := by
  induction x generalizing l with
  | nil => rfl
  | cons c x ih =>
    rw [List.cons_append, feed, feed]
    cases headerByte l c with
    | error f => rfl
    | ok r =>
      cases r with
      | done r => rfl
      | more l => exact ih l

end JaroFilter
