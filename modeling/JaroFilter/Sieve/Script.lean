import JaroFilter.Sieve.Tokens

/-!
# Scripts and what they do

The abstract side of the script format (`doc/filter-interfaces.md:442`): a
reader from tokens to seven blocks of guarded `fileinto` commands with a final
`fileinto`, and the meaning of such a script on a message. Nothing here is
translated from the reader in `import.c`.
-/

namespace JaroFilter

open Lib

/-! ### Syntax -/

inductive Part where
  | all | domain
  deriving DecidableEq, Repr

inductive MatchType where
  | is | matches | regex | contains
  deriving DecidableEq, Repr

/-- The tagged arguments of a test, in whatever order they stood. -/
structure Tags where
  part : Option Part
  matchType : Option MatchType
  comparator : Option Bytes
  deriving DecidableEq, Repr

/-- An `address` or `header` test. -/
structure Test where
  address : Bool
  tags : Tags
  fields : List Bytes
  keys : List Bytes
  deriving DecidableEq, Repr

/-- `fileinto [:create] mailbox;` -/
structure Action where
  create : Bool
  mailbox : Bytes
  deriving DecidableEq, Repr

/-- `if test { action stop; }` -/
structure Command where
  test : Test
  action : Action
  deriving DecidableEq, Repr

structure Script where
  requires : List Bytes
  blocks : List (List Command)
  final : Action
  deriving DecidableEq, Repr

/-! ### Reading tokens -/

/-- A keyword or tag, in any case. -/
def Token.isWord (t : Token) (w : String) : Bool :=
  match t with
  | .word s => foldBytes s == foldBytes (cstr w)
  | _ => false

/-- The rest of a string list after its opening bracket. -/
def readItems : List Token → Option (List Bytes × List Token)
  | .string s :: .punct c :: ts =>
    if c = 44 then (readItems ts).map fun r => (s :: r.1, r.2)
    else if c = 93 then some ([s], ts)
    else none
  | _ => none

/-- One string, or a bracketed list. -/
def readStrings : List Token → Option (List Bytes × List Token)
  | .string s :: ts => some ([s], ts)
  | .punct c :: ts => if c = 91 then readItems ts else none
  | _ => none

def partOf (t : Token) : Option Part :=
  if t.isWord ":all" then some .all else if t.isWord ":domain" then some .domain else none

def matchTypeOf (t : Token) : Option MatchType :=
  if t.isWord ":is" then some .is
  else if t.isWord ":matches" then some .matches
  else if t.isWord ":regex" then some .regex
  else if t.isWord ":contains" then some .contains
  else none

def isTag : Token → Bool
  | .word w => w.head? == some 58
  | _ => false

/-- The tags of a test, each kind at most once. -/
def readTags : Tags → List Token → Option (Tags × List Token)
  | tags, t :: ts =>
    if isTag t = false then some (tags, t :: ts)
    else match partOf t, matchTypeOf t with
      | some p, _ => if tags.part = none then readTags { tags with part := some p } ts else none
      | _, some m =>
        if tags.matchType = none then readTags { tags with matchType := some m } ts else none
      | none, none =>
        match ts with
        | .string c :: ts =>
          if t.isWord ":comparator" ∧ tags.comparator = none then
            readTags { tags with comparator := some c } ts
          else none
        | _ => none
  | tags, [] => some (tags, [])

def expect (c : Byte) : List Token → Option (List Token)
  | t :: ts => if t = .punct c then some ts else none
  | [] => none

def expectWord (w : String) : List Token → Option (List Token)
  | t :: ts => if t.isWord w then some ts else none
  | [] => none

/-- `fileinto [:create] "mailbox";` -/
def readAction (ts : List Token) : Option (Action × List Token) := do
  let ts ← expectWord "fileinto" ts
  let create := (expectWord ":create" ts).isSome
  let ts := (expectWord ":create" ts).getD ts
  match ts with
  | .string mailbox :: ts => do
    let ts ← expect 59 ts
    return (⟨create, mailbox⟩, ts)
  | _ => none

/-- The kind of test a command starts with. -/
def readTestName : List Token → Option (Bool × List Token)
  | t :: ts =>
    if t.isWord "address" then some (true, ts)
    else if t.isWord "header" then some (false, ts)
    else none
  | [] => none

/-- A guarded command after its `if`. -/
def readCommand (ts : List Token) : Option (Command × List Token) := do
  let (address, ts) ← readTestName ts
  let (tags, ts) ← readTags ⟨none, none, none⟩ ts
  let (fields, ts) ← readStrings ts
  let (keys, ts) ← readStrings ts
  let ts ← expect 123 ts
  let (action, ts) ← readAction ts
  let ts ← expectWord "stop" ts
  let ts ← expect 59 ts
  let ts ← expect 125 ts
  return (⟨⟨address, tags, fields, keys⟩, action⟩, ts)

/-- The commands of a block; `fuel` bounds their number. -/
def readCommands : ℕ → List Token → Option (List Command × List Token)
  | 0, _ => none
  | fuel + 1, ts =>
    match expectWord "if" ts with
    | none => some ([], ts)
    | some ts => do
      let (c, ts) ← readCommand ts
      let (cs, ts) ← readCommands fuel ts
      return (c :: cs, ts)

/-- `if true { commands }`, a number of times. -/
def readBlocks (fuel : ℕ) : ℕ → List Token → Option (List (List Command) × List Token)
  | 0, ts => some ([], ts)
  | n + 1, ts => do
    let ts ← expectWord "if" ts
    let ts ← expectWord "true" ts
    let ts ← expect 123 ts
    let (block, ts) ← readCommands fuel ts
    let ts ← expect 125 ts
    let (blocks, ts) ← readBlocks fuel n ts
    return (block :: blocks, ts)

def readRequires (ts : List Token) : Option (List Bytes × List Token) :=
  match expectWord "require" ts with
  | none => some ([], ts)
  | some ts => do
    let (names, ts) ← readStrings ts
    let ts ← expect 59 ts
    return (names, ts)

/-- The whole script: seven stage blocks and the final action. -/
def readScript (ts : List Token) : Option Script := do
  let (requires, ts) ← readRequires ts
  let (blocks, ts) ← readBlocks (ts.length + 1) 7 ts
  let (final, ts) ← readAction ts
  if ts = [.eof] then some ⟨requires, blocks, final⟩ else none

/-- A script's text, read by an implementation without a limit of its own. -/
def readText (s : Bytes) : Option Script := readScript ((tokens s.length s).map Prod.fst)

/-! ### Meaning -/

/-- Glob matching: `*` any run of bytes, `?` any byte, a backslash quotes. -/
def glob : Bytes → Bytes → Bool
  | [], s => s == []
  | c :: p, s =>
    if c = 42 then s.tails.any (glob p)
    else if c = 63 then s != [] && glob p s.tail
    else if c = 92 then
      match p with
      | e :: p => s.head? == some e && glob p s.tail
      | [] => false
    else s.head? == some c && glob p s.tail

/-- One subject against one key, under `i;ascii-casemap`. -/
def Compares (posix : Posix) (m : MatchType) (subject key : Bytes) : Prop :=
  match m with
  | .is => foldBytes subject = foldBytes key
  | .contains => foldBytes key <:+: foldBytes subject
  | .matches => glob (foldBytes key) (foldBytes subject) = true
  | .regex => posix.regexec key subject = .found

/-- The field a header name selects. -/
def fieldBit (name : Bytes) : ℕ :=
  if foldBytes name = cstr "from" then fieldFrom
  else if foldBytes name = cstr "sender" then fieldSender
  else if foldBytes name = cstr "to" then fieldTo
  else if foldBytes name = cstr "cc" then fieldCc
  else if foldBytes name = cstr "x-spam-flag" then fieldSpam
  else 0

/-- The raw values of a header the message carries. -/
def headerValues (m : Message) (name : Bytes) : List Bytes :=
  if fieldBit name = fieldSender then m.senders
  else if fieldBit name = fieldSpam then m.spamFlags
  else []

/-- The part of a mailbox an address test compares. -/
def addressPart (part : Option Part) (l d : Bytes) : Bytes :=
  if part = some .domain then d else canonical l d

/-- When a test is true of a message: some listed header has a value or a
mailbox that compares with some key. `header :is` ignores outer blanks. -/
def TestHolds (posix : Posix) (m : Message) (t : Test) : Prop :=
  if t.address then
    ∃ a ∈ m.addresses, (∃ f ∈ t.fields, fieldBit f = a.field) ∧ ∃ k ∈ t.keys,
      ∃ l d, IsMailbox l d ∧ Spells a.value l d ∧
        Compares posix (t.tags.matchType.getD .is) (addressPart t.tags.part l d) k
  else
    ∃ f ∈ t.fields, ∃ v ∈ headerValues m f, ∃ k ∈ t.keys,
      Compares posix (t.tags.matchType.getD .is)
        (if t.tags.matchType.getD .is = .is then trimBlanks v else v) k

open Classical in
/-- The mailbox a list of commands files into; `stop` ends it at the first
command whose test holds. -/
noncomputable def runCommands (posix : Posix) (m : Message) : List Command → Bytes → Bytes
  | [], final => final
  | c :: cs, final =>
    if TestHolds posix m c.test then c.action.mailbox else runCommands posix m cs final

/-- The mailbox a script files the message into. -/
noncomputable def runScript (posix : Posix) (m : Message) (s : Script) : Bytes :=
  runCommands posix m s.blocks.flatten s.final.mailbox

end JaroFilter
