import JaroFilter.Policy.Mailbox
import JaroFilter.Products.Cache

/-!
# Adding a contact (`contact.c`)

An addressbook is a text of sections: a `[format]` header, then one numbered
section a contact. The scanner reads it line by line for the largest number and
for the wanted mailbox; the writer appends one section behind everything else.
-/

namespace JaroFilter

open Lib

/-! ### The fields -/

/-- `valid_text` (`contact.c:13`). -/
def validText (s : Bytes) : Bool :=
  decide (s.length ≤ lineMax) && validUtf8 s && s.all fun c => !isControl c

/-- `canonical` (`contact.c:21`): the normalized mailbox in lower case. -/
def canonicalEmail (s : Bytes) : Option Bytes :=
  if validUtf8 s then (normalizeMailbox s).map foldBytes else none

def sameMailbox (wanted piece : Bytes) : Bool := canonicalEmail (trimBlanks piece) == some wanted

/-- `same_email` (`contact.c:29`): one of the pieces between unquoted commas is
the wanted mailbox. -/
def sameEmail (wanted : Bytes) : Bool → Bool → Bytes → Bytes → Bool
  | _, _, piece, [] => sameMailbox wanted piece
  | quote, true, piece, c :: s => sameEmail wanted quote false (piece ++ [c]) s
  | quote, false, piece, c :: s =>
    if c = 92 ∧ quote = true then sameEmail wanted quote true (piece ++ [c]) s
    else if c = 34 then sameEmail wanted (!quote) false (piece ++ [c]) s
    else if c = 44 ∧ quote = false then sameMailbox wanted piece || sameEmail wanted quote false [] s
    else sameEmail wanted quote false (piece ++ [c]) s

/-! ### The scanner (`contact.c:91-122`) -/

/-- The counters of the loop; `inSection` is the source's `section`. -/
structure BookScan where
  format : Bool
  inSection : Bool
  records : ℕ
  next : ℕ
  deriving DecidableEq, Repr

/-- What a line, and then the whole loop, comes to. -/
inductive Scanned where
  | invalid
  | present
  | done (s : BookScan)
  deriving DecidableEq, Repr

def bookStart : BookScan := ⟨false, false, 0, 0⟩

/-- A line without its leading blanks and its trailing blanks and returns. -/
def trimLine (l : Bytes) : Bytes :=
  (l.dropWhile isBlank).rdropWhile fun c => isBlank c || c == 13

/-- The number between the brackets of a section header. -/
def headerNumber (t : Bytes) : Option ℕ :=
  if t.length < 3 ∨ t.getLast? ≠ some 93 then none else decimalLoop 0 t.tail.dropLast

def scanHeader (s : BookScan) (t : Bytes) : Scanned :=
  if t = cstr "[format]" then
    if s.format = true ∨ s.records ≠ 0 then .invalid
    else .done { s with format := true, inSection := false }
  else if s.format = false then .invalid
  else match headerNumber t with
    | none => .invalid
    | some id =>
      if id = sizeMax ∨ ruleMax < s.records + 1 then .invalid
      else .done { s with
        records := s.records + 1
        next := if s.next ≤ id then id + 1 else s.next
        inSection := true }

def scanField (wanted : Bytes) (s : BookScan) (t : Bytes) : Scanned :=
  let key := t.takeWhile (· != 61)
  if s.format = false ∨ key.length = t.length then .invalid
  else if s.inSection = true ∧ key.rdropWhile isBlank = cstr "email" ∧
      sameEmail wanted false false [] (t.drop (key.length + 1)) = true then .present
  else .done s

def scanLine (wanted : Bytes) (s : BookScan) (l : Bytes) : Scanned :=
  let t := trimLine l
  if lineMax < t.length ∨ 0 ∈ t then .invalid
  else if t = [] ∨ t.head? = some 35 then .done s
  else if t.head? = some 91 then scanHeader s t
  else scanField wanted s t

def scanLines (wanted : Bytes) : BookScan → List Bytes → Scanned
  | s, [] => .done s
  | s, l :: ls =>
    match scanLine wanted s l with
    | .done s => scanLines wanted s ls
    | r => r

/-! ### The writer (`contact.c:124-145`) -/

def formatHeader : Bytes := cstr "\n[format]\nprogram=abook\nversion=0.6.1\n"

def contactRecord (s : BookScan) (email name : Bytes) : Bytes :=
  (if s.format then [] else formatHeader) ++
    (cstr "\n[" ++ decimalText s.next ++ cstr "]\nname=" ++ (if name = [] then email else name) ++
      cstr "\nemail=" ++ email ++ cstr "\n")

/-- The codes of `jf_contact_add`'s diagnostics. -/
inductive BookCode where
  | eContact | eAddress | eBookBusy | eBookChanged | eAddressbook | eIo
  deriving DecidableEq, Repr

/-- What the system reports to one call. `stopped` is how many bytes were
written when the write, a sync or the parent's sync failed. -/
structure BookIo where
  opened : Bool
  busy : Bool
  readable : Bool
  unchanged : Bool
  stopped : Option ℕ
  deriving DecidableEq, Repr

/-- A call on which nothing goes wrong outside. -/
def quietIo : BookIo := ⟨true, false, true, true, none⟩

/-- The status, the diagnostic and the file left behind; `none` for no file. -/
structure Added where
  rc : ℕ
  error : Option (BookCode × Bytes)
  book : Option Bytes
  deriving DecidableEq, Repr

def refused (code : BookCode) (detail : String) (book : Option Bytes) : Added :=
  ⟨4, some (code, cstr detail), book⟩

def ioFailed (book : Option Bytes) : Added :=
  ⟨3, some (.eIo, cstr ("contact append failed; original records retained; inspect the book " ++
    "before retrying")), book⟩

def unsupportedBook (book : Option Bytes) : Added :=
  refused .eAddressbook
    "unsupported addressbook structure or contact limit; existing records unchanged" book

/-- The append behind the scanned bytes. -/
def appendContact (io : BookIo) (raw : Bytes) (s : BookScan) (email name : Bytes) : Added :=
  let record := contactRecord s email name
  if s.records = ruleMax ∨ inputMax < raw.length + record.length then unsupportedBook (some raw)
  else if io.unchanged = false then
    ⟨6, some (.eBookChanged, cstr "addressbook changed while preparing the contact; retry"), some raw⟩
  else match io.stopped with
    | some n => ioFailed (some (raw ++ record.take n))
    | none => ⟨0, none, some (raw ++ record)⟩

/-- `jf_contact_add` (`contact.c:63`). A file that is not there is created
before it is read, unless the call only checks. -/
def contactAdd (io : BookIo) (book : Option Bytes) (email name : Bytes) (check : Bool) : Added :=
  if validText email = false ∨ validText name = false ∨ 44 ∈ email then
    refused .eContact "contact fields contain unsupported bytes or exceed their limit" book
  else match canonicalEmail email with
    | none => refused .eAddress "invalid contact mailbox" book
    | some address =>
      if check = true ∧ book = none then ⟨0, none, none⟩
      else if io.opened = false then ioFailed book
      else
        let raw := book.getD []
        if io.busy then
          ⟨6, some (.eBookBusy, cstr "addressbook is locked; retry after its writer finishes"), some raw⟩
        else if io.readable = false ∨ inputMax < raw.length then ioFailed (some raw)
        else match scanLines address bookStart (lines raw) with
          | .invalid => unsupportedBook (some raw)
          | .present => ⟨1, none, some raw⟩
          | .done s =>
            if check then ⟨0, none, some raw⟩
            else appendContact io raw s email name

end JaroFilter
