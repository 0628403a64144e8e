import JaroFilter.Header.Reader
import JaroFilter.Import.Merge
import JaroFilter.Products.Restore

/-!
# Recovering the rules of a script (`import.c:97-365`)

The recursive descent over the tokens of a generated script. Every rule becomes
a line of one of the four import files, and these are parsed as a policy.
-/

namespace JaroFilter

open Lib

namespace Import

/-! ### Tokens -/

/-- The tokens from the current one on, each with its line. -/
abbrev Stream := List (Token × ℕ)

/-- `token_line`. -/
def Stream.line (ts : Stream) : ℕ := (ts.head?.map Prod.snd).getD 1

def Stream.token (ts : Stream) : Token := (ts.head?.map Prod.fst).getD .eof

/-- `invalid`, at the current token. -/
def invalid {α : Type} (ts : Stream) (detail : String) : Except Failure α :=
  .error (productError .eSieveImport ts.line (cstr detail))

/-- `memory`. -/
def memory {α : Type} (ts : Stream) : Except Failure α :=
  .error (productError .eMemory ts.line (cstr "import allocation/size limit"))

/-- The tokens behind the current one; a lexical error shows as soon as it is read. -/
def advance (ts : Stream) : Except Failure Stream :=
  match ts.tail with
  | (.bad f, line) :: _ => .error (f.fail none line)
  | rest => .ok rest

/-- `is`. -/
def isWord (ts : Stream) (word : String) : Bool :=
  match ts.token with
  | .word w => foldBytes w == foldBytes (cstr word)
  | _ => false

/-- `take`. -/
def take (ts : Stream) (c : Byte) : Except Failure Stream :=
  if ts.token = .punct c then advance ts
  else invalid ts "unexpected token or truncated generated script"

/-- The label `bad` of `rule`. -/
def bad {α : Type} (ts : Stream) : Except Failure α :=
  invalid ts "unsupported test, stage, comparator, order or action in generated script"

/-- A word that a rule must have. -/
def keyword (ts : Stream) (word : String) : Except Failure Stream :=
  if isWord ts word then advance ts else bad ts

theorem advance_eq {ts rest : Stream} (h : advance ts = .ok rest) : rest = ts.tail := by
  unfold advance at h
  split at h
  · cases h
  · cases h
    rfl

theorem advance_length {ts rest : Stream} (h : advance ts = .ok rest) (ht : ts.token ≠ .eof) :
    rest.length < ts.length := by
  cases ts with
  | nil => exact absurd rfl ht
  | cons t ts =>
    rw [advance_eq h]
    exact Nat.lt_succ_self _

theorem token_of_isWord {ts : Stream} {word : String} (h : isWord ts word = true) : ts.token ≠ .eof := by
  intro ht
  rw [isWord, ht] at h
  cases h

theorem take_length {ts rest : Stream} {c : Byte} (h : take ts c = .ok rest) : rest.length < ts.length := by
  unfold take at h
  split at h
  · rename_i ht
    exact advance_length h (by rw [ht]; simp)
  · cases h

theorem keyword_length {ts rest : Stream} {word : String} (h : keyword ts word = .ok rest) :
    rest.length < ts.length := by
  unfold keyword at h
  split at h
  · rename_i hword
    exact advance_length h (token_of_isWord hword)
  · cases h

/-- The loop of `strings` inside brackets; `n` strings were read. -/
def stringItems : ℕ → ℕ → Stream → Except Failure (List Bytes × Stream)
  | 0, _, ts => invalid ts "expected nonempty bounded string/list"
  | fuel + 1, n, ts =>
    match ts.token with
    | .string value =>
      if n = ruleMax then invalid ts "expected nonempty bounded string/list"
      else do
        let ts ← advance ts
        if ts.token = .punct 93 then
          let ts ← advance ts
          return ([value], ts)
        else
          let ts ← take ts 44
          let (values, ts) ← stringItems fuel (n + 1) ts
          return (value :: values, ts)
    | _ => invalid ts "expected nonempty bounded string/list"

/-- `strings`: one string, or a list in brackets. -/
def strings (ts : Stream) : Except Failure (List Bytes × Stream) :=
  if ts.token = .punct 91 then do
    let ts ← advance ts
    stringItems ts.length 0 ts
  else match ts.token with
    | .string value => do
      let ts ← advance ts
      return ([value], ts)
    | _ => invalid ts "expected nonempty bounded string/list"

theorem bind_congr_ok {ε α β : Type} {x : Except ε α} {f g : α → Except ε β}
    (h : ∀ a, x = .ok a → f a = g a) : (x >>= f) = x >>= g := by
  cases x with
  | error e => rfl
  | ok a => exact h a rfl

/-- A turn of the list takes two tokens: the turns of `strings` suffice. -/
theorem stringItems_enough {fuel n : ℕ} {ts : Stream} (h : ts.length ≤ fuel) (more : ℕ) :
    stringItems (fuel + more) n ts = stringItems fuel n ts := by
  induction fuel generalizing n ts with
  | zero =>
    obtain rfl := List.eq_nil_of_length_eq_zero (Nat.le_zero.mp h)
    cases more <;> rfl
  | succ fuel ih =>
    rw [Nat.add_right_comm, stringItems, stringItems]
    split
    · rename_i value htoken
      split
      · rfl
      · refine bind_congr_ok fun rest hrest => ?_
        split
        · rfl
        · refine bind_congr_ok fun next hnext => ?_
          have h1 := advance_length hrest (by rw [htoken]; simp)
          have h2 := take_length hnext
          rw [ih (by omega)]
    · rfl

theorem stringItems_length {fuel n : ℕ} {ts rest : Stream} {values : List Bytes}
    (h : stringItems fuel n ts = .ok (values, rest)) : rest.length < ts.length := by
  induction fuel generalizing n ts values with
  | zero => cases h
  | succ fuel ih =>
    rw [stringItems] at h
    split at h
    · rename_i value htoken
      split at h
      · cases h
      · obtain ⟨next, hnext, h⟩ := bind_eq_ok_iff.mp h
        have h1 := advance_length hnext (by rw [htoken]; simp)
        split at h
        · rename_i hclose
          obtain ⟨last, hlast, h⟩ := bind_eq_ok_iff.mp h
          cases h
          exact (advance_length hlast (by rw [hclose]; simp)).trans h1
        · obtain ⟨comma, hcomma, h⟩ := bind_eq_ok_iff.mp h
          obtain ⟨⟨more, last⟩, hmore, h⟩ := bind_eq_ok_iff.mp h
          cases h
          exact (ih hmore).trans ((take_length hcomma).trans h1)
    · cases h

theorem strings_length {ts rest : Stream} {values : List Bytes} (h : strings ts = .ok (values, rest)) :
    rest.length < ts.length := by
  unfold strings at h
  split at h
  · rename_i hopen
    obtain ⟨next, hnext, h⟩ := bind_eq_ok_iff.mp h
    exact (stringItems_length h).trans (advance_length hnext (by rw [hopen]; simp))
  · split at h
    · rename_i value htoken
      obtain ⟨next, hnext, h⟩ := bind_eq_ok_iff.mp h
      cases h
      exact advance_length hnext (by rw [htoken]; simp)
    · cases h

/-! ### What has been recovered -/

/-- The extensions `fileinto`, `mailbox`, `regex` and `variables`, from the low bit on. -/
abbrev Capabilities := BitVec 4

/-- The part of `struct parser` that the rules fill. -/
structure Recovered where
  rules : ℕ
  routes : ℕ
  /-- `builtins`, for the stages 2 and 6. -/
  builtins : ℕ → ℕ
  used : Capabilities
  text : ImportFile → Bytes
  lines : ImportFile → List ℕ

def Recovered.empty : Recovered := ⟨0, 0, fun _ => 0, 0, fun _ => [], fun _ => []⟩

/-- The file of a record. -/
def recordFile (stage : ℕ) (selector : Bytes) : ImportFile :=
  if stage = 1 then .blacklist
  else if stage = 7 then .aliases
  else if stage = 5 ∧ selector = cstr "address" then .whitelist
  else .filters

/-- The line of a record behind what its file has. -/
def recordText (b : Bytes) (stage : ℕ) (selector key : Bytes) (destination : Option Bytes) : Option Bytes := do
  let b ← if recordFile stage selector = .filters then do
      let b ← bytesText b selector
      let b ← bytesText b (cstr " ")
      let b ← quote b key
      match destination with
      | none => some b
      | some d => do
        let b ← bytesText b (cstr " move ")
        quote b d
    else if stage = 7 then quote b key
    else bytesText b key
  bytesText b (cstr "\n")

/-- `record`. -/
def record (ts : Stream) (ruleLine stage : ℕ) (selector key : Bytes) (destination : Option Bytes)
    (r : Recovered) : Except Failure Recovered :=
  let file := recordFile stage selector
  if ruleMax < r.rules + 1 then invalid ts "too many imported rules"
  else match recordText (r.text file) stage selector key destination with
    | none => memory ts
    | some b => .ok { r with
        rules := r.rules + 1
        routes := if file = .filters then r.routes + 1 else r.routes
        text := Function.update r.text file b
        lines := Function.update r.lines file (r.lines file ++ [ruleLine]) }

/-- `contact`: the mailboxes of a historical header text. -/
def contact (ts : Stream) (ruleLine stage : ℕ) (raw : Bytes) (r : Recovered) : Except Failure Recovered :=
  match bytesText [] (cstr "From: " ++ raw ++ cstr "\n\n") with
  | none => memory ts
  | some wire =>
    match headersParse wire with
    | .error _ => invalid ts "legacy contact is not a representable mailbox"
    | .ok headers =>
      if headers.message.addresses = [] then invalid ts "empty legacy contact"
      else headers.message.addresses.foldlM
        (fun r a => record ts ruleLine stage (cstr "address") a.value none r) r

/-! ### Mailboxes -/

/-- `mapped`. -/
def mapped (profile : Profile) (logical : Bytes) (kind : Kind) : Option Bytes :=
  profileMailbox profile (newRule none 0 [] [] logical kind 0 0)

/-- `mapping_is`. -/
def mappingIs (ts : Stream) (profile : Profile) (mailbox logical : Bytes) (kind : Kind) : Except Failure Bool :=
  match mapped profile logical kind with
  | none => memory ts
  | some value => .ok (value == mailbox)

/-- One turn over the configured names: the one that has this mailbox. -/
def namedBy (ts : Stream) (profile : Profile) (mailbox : Bytes) (result : Option Bytes) (key : Bytes) :
    Except Failure (Option Bytes) := do
  if ← mappingIs ts profile mailbox key .address then
    match result with
    | none => return some key
    | some name => if name ≠ key then invalid ts "ambiguous mailbox mappings" else return some name
  else return result

/-- The local name, separator by separator. -/
def localName (separator : Bytes) : ℕ → Bytes → Bytes
  | 0, _ => []
  | _, [] => []
  | fuel + 1, c :: s =>
    if separator.isPrefixOf (c :: s) then 47 :: localName separator fuel ((c :: s).drop separator.length)
    else c :: localName separator fuel s

/-- `unmap`. -/
def unmap (ts : Stream) (profile : Profile) (mailbox : Bytes) : Except Failure Bytes := do
  let keys := profile.mappings.map Mapping.logical ++ [cstr "known"]
  let result ← keys.foldlM (namedBy ts profile mailbox) none
  let rest := mailbox.drop profile.namespacePrefix.length
  if profile.separator = [] ∨ profile.namespacePrefix.isPrefixOf mailbox = false then
    match result with
    | some name => return name
    | none => invalid ts "mailbox outside configured namespace"
  else if profile.separator ≠ cstr "/" ∧ (rest.tails.any fun t => profile.separator.isPrefixOf t) = true then
    match result with
    | some name => return name
    | none => invalid ts "ambiguous namespace separator; declare an explicit mailbox mapping"
  else
    let inverse := localName profile.separator rest.length rest
    if cacheMax < inverse.length + 1 then memory ts
    else match result with
      | none => return inverse
      | some name =>
        if (← mappingIs ts profile mailbox inverse .address) ∧ name ≠ inverse then
          invalid ts "ambiguous mapped and named mailbox destinations"
        else return name

/-! ### Rules -/

/-- `action`: the mailbox, and what it uses. -/
def action (ts : Stream) (profile : Profile) : Except Failure ((Bytes × Capabilities) × Stream) :=
  if isWord ts "fileinto" = false then invalid ts "only fileinto move actions are supported"
  else do
    let ts ← advance ts
    let create := isWord ts ":create"
    let ts ← (if create then advance ts else .ok ts)
    match ts.token with
    | .string mailbox =>
      if mailbox = [] then invalid ts "fileinto requires one nonempty mailbox"
      else if create ≠ profile.create then invalid ts "fileinto :create differs from configured profile"
      else do
        let ts ← advance ts
        let ts ← take ts 59
        return ((mailbox, if create then 3 else 1), ts)
    | _ => invalid ts "fileinto requires one nonempty mailbox"

theorem action_length {ts rest : Stream} {profile : Profile} {x : Bytes × Capabilities}
    (h : action ts profile = .ok (x, rest)) : rest.length < ts.length := by
  unfold action at h
  split at h
  · cases h
  · rename_i hword
    obtain ⟨first, hfirst, h⟩ := bind_eq_ok_iff.mp h
    have h1 := advance_length hfirst (token_of_isWord (by simpa using hword))
    obtain ⟨second, hsecond, h⟩ := bind_eq_ok_iff.mp h
    have h2 : second.length ≤ first.length := by
      split at hsecond
      · rename_i hcreate
        exact (advance_length hsecond (token_of_isWord hcreate)).le
      · cases hsecond
        exact le_rfl
    split at h
    · rename_i mailbox htoken
      split at h
      · cases h
      · split at h
        · cases h
        · obtain ⟨third, hthird, h⟩ := bind_eq_ok_iff.mp h
          obtain ⟨last, hlast, h⟩ := bind_eq_ok_iff.mp h
          cases h
          have h3 := advance_length hthird (by rw [htoken]; simp)
          have h4 := take_length hlast
          omega
    · cases h

inductive AddressPart where
  | all | domain
  deriving DecidableEq, Repr

inductive MatchType where
  | equal | wildcard | regex | contains
  deriving DecidableEq, Repr

inductive Tag where
  | part (p : AddressPart)
  | comparison (c : MatchType)
  | comparator
  deriving DecidableEq, Repr

def tagOf (word : Bytes) : Option Tag :=
  let word := foldBytes word
  if word = cstr ":all" then some (.part .all)
  else if word = cstr ":domain" then some (.part .domain)
  else if word = cstr ":is" then some (.comparison .equal)
  else if word = cstr ":matches" then some (.comparison .wildcard)
  else if word = cstr ":regex" then some (.comparison .regex)
  else if word = cstr ":contains" then some (.comparison .contains)
  else if word = cstr ":comparator" then some .comparator
  else none

/-- The tagged arguments of a test. -/
structure Tags where
  part : Option AddressPart
  comparison : Option MatchType
  comparator : Bool

/-- None is given twice. -/
def Tags.set (m : Tags) : Tag → Option Tags
  | .part p => if m.part.isSome then none else some { m with part := some p }
  | .comparison c => if m.comparison.isSome then none else some { m with comparison := some c }
  | .comparator => if m.comparator then none else some { m with comparator := true }

def comparatorName (ts : Stream) (tag : Tag) : Except Failure Stream :=
  if tag ≠ .comparator then .ok ts
  else if ts.token = .string (cstr "i;ascii-casemap") then advance ts
  else bad ts

/-- The loop over the tagged arguments. -/
def tags : ℕ → Tags → Stream → Except Failure (Tags × Stream)
  | 0, m, ts => .ok (m, ts)
  | fuel + 1, m, ts =>
    match ts.token with
    | .word w =>
      if w.head? ≠ some 58 then .ok (m, ts)
      else match (tagOf w).bind fun tag => (m.set tag).map fun m => (tag, m) with
        | none => bad ts
        | some (tag, m) => do
          let ts ← advance ts
          let ts ← comparatorName ts tag
          tags fuel m ts
    | _ => .ok (m, ts)

theorem comparatorName_length {ts rest : Stream} {tag : Tag} (h : comparatorName ts tag = .ok rest) :
    rest.length ≤ ts.length := by
  unfold comparatorName at h
  split at h
  · cases h
    exact le_rfl
  · split at h
    · rw [advance_eq h, List.length_tail]
      exact Nat.sub_le _ _
    · cases h

theorem tags_enough {fuel : ℕ} {m : Tags} {ts : Stream} (h : ts.length ≤ fuel) (more : ℕ) :
    tags (fuel + more) m ts = tags fuel m ts := by
  induction fuel generalizing m ts with
  | zero =>
    obtain rfl := List.eq_nil_of_length_eq_zero (Nat.le_zero.mp h)
    cases more <;> rfl
  | succ fuel ih =>
    rw [Nat.add_right_comm, tags, tags]
    split
    · rename_i w htoken
      split
      · rfl
      · split
        · rfl
        · refine bind_congr_ok fun next hnext => bind_congr_ok fun last hlast => ?_
          have h1 := advance_length hnext (by rw [htoken]; simp)
          have h2 := comparatorName_length hlast
          exact ih (by omega)
    · rfl

theorem tags_length {fuel : ℕ} {m m' : Tags} {ts rest : Stream} (h : tags fuel m ts = .ok (m', rest)) :
    rest.length ≤ ts.length := by
  induction fuel generalizing m ts with
  | zero =>
    cases h
    exact le_rfl
  | succ fuel ih =>
    rw [tags] at h
    split at h
    · rename_i w htoken
      split at h
      · cases h
        exact le_rfl
      · split at h
        · cases h
        · obtain ⟨next, hnext, h⟩ := bind_eq_ok_iff.mp h
          obtain ⟨last, hlast, h⟩ := bind_eq_ok_iff.mp h
          have h1 := advance_length hnext (by rw [htoken]; simp)
          have h2 := comparatorName_length hlast
          have h3 := ih h
          omega
    · cases h
      exact le_rfl

/-- The bit of a header field; 0 for another one. -/
def fieldBit (name : Bytes) : ℕ :=
  if foldBytes name = foldBytes (cstr "From") then fieldFrom
  else if foldBytes name = foldBytes (cstr "Sender") then fieldSender
  else if foldBytes name = foldBytes (cstr "To") then fieldTo
  else if foldBytes name = foldBytes (cstr "Cc") then fieldCc
  else if foldBytes name = foldBytes (cstr "X-Spam-Flag") then fieldSpam
  else 0

def fieldMask (names : List Bytes) : Option ℕ :=
  names.foldlM (fun mask name =>
    if fieldBit name = 0 ∨ mask &&& fieldBit name ≠ 0 then none else some (mask ||| fieldBit name)) 0

/-- What a rule says, and the stage it stands in. -/
structure Test where
  address : Bool
  tags : Tags
  mask : ℕ
  keys : List Bytes
  mailbox : Bytes

/-- The stage of a historical rule, by its fields and mailbox; 0 for none. -/
def legacyStageOf (ts : Stream) (profile : Profile) (t : Test) : Except Failure ℕ := do
  let files (logical : String) (kind : Kind) : Except Failure Bool :=
    mappingIs ts profile t.mailbox (cstr logical) kind
  if t.mask = 1 then
    return if ← files "zz.blacklist" .address then 1 else 0
  else if t.mask = 2 then
    return if ← files "zz.bounces" .senderContains then 2 else 0
  else if t.mask = 3 then
    return if ← files "known" .address then 5 else 3
  else if t.mask = 16 then
    return if ← files "spam" .spamIs then 6 else 0
  else if t.mask = 12 then
    return if ← files "priv" .address then 7 else 4
  else return 0

/-- The selector of a key of a generated rule. -/
def selectorOf (stage : ℕ) (t : Test) (key : Bytes) : Option Bytes :=
  let mailbox := t.tags.part == some .all && t.tags.comparison == some .equal
  let domain := t.tags.part == some .domain &&
    (t.tags.comparison == some .equal || t.tags.comparison == some .wildcard)
  if t.address = false then none
  else if stage ≠ 3 ∧ stage ≠ 4 ∧ mailbox = false ∧ ¬ (stage = 5 ∧ domain = true) then none
  else if mailbox then
    some (if stage = 3 then cstr "from-address" else if stage = 4 then cstr "to-address" else cstr "address")
  else if domain then
    if (t.tags.comparison == some .wildcard) ≠ (cstr "*.").isPrefixOf key then none
    else some (if stage = 3 then cstr "from-domain" else if stage = 4 then cstr "to-domain" else cstr "known-domain")
  else if t.tags.part = some .all ∧ t.tags.comparison = some .regex ∧ (stage = 3 ∨ stage = 4) then
    some (if stage = 3 then cstr "from" else cstr "to")
  else none

/-- A bounce or spam rule. -/
def builtinRule (ts : Stream) (profile : Profile) (stage : ℕ) (t : Test) (r : Recovered) :
    Except Failure Recovered := do
  let comparison := if stage = 2 then MatchType.contains else .equal
  if t.address = true ∨ t.tags.part.isSome = true ∨ t.mask ≠ (if stage = 2 then 2 else 16) ∨
      t.tags.comparison ≠ some comparison ∨
      t.keys.map foldBytes ≠ [foldBytes (if stage = 2 then cstr "mailman-bounce" else cstr "YES")] then bad ts
  else
    let named ← mappingIs ts profile t.mailbox (if stage = 2 then cstr "zz.bounces" else cstr "spam")
      (if stage = 2 then .senderContains else .spamIs)
    if named = false ∨ r.builtins stage + 1 ≠ 1 then bad ts
    else return { r with builtins := Function.update r.builtins stage (r.builtins stage + 1) }

/-- The destination of a route, the mailbox of a contact being fixed. -/
def ruleDestination (ts : Stream) (profile : Profile) (stage : ℕ) (mailbox : Bytes) :
    Except Failure (Option Bytes) :=
  if stage = 1 ∨ stage = 5 ∨ stage = 7 then do
    let logical := if stage = 1 then cstr "zz.blacklist" else if stage = 5 then cstr "known" else cstr "priv"
    if ← mappingIs ts profile mailbox logical .address then return none else bad ts
  else (unmap ts profile mailbox).map some

/-- A contact or a route. -/
def recordRule (ts : Stream) (profile : Profile) (legacy : Bool) (ruleLine stage : ℕ) (t : Test) (r : Recovered) :
    Except Failure Recovered :=
  if t.mask ≠ (if stage = 1 ∨ stage = 5 then 1 else if stage = 3 then 3 else 12) ∧
      ¬ (legacy = true ∧ stage = 5 ∧ t.mask = 3) then bad ts
  else do
    let destination ← ruleDestination ts profile stage t.mailbox
    t.keys.foldlM (fun r key =>
      if legacy then
        if t.tags.comparison ≠ some .contains then bad ts
        else if stage = 1 ∨ stage = 5 ∨ stage = 7 then contact ts ruleLine stage key r
        else record ts ruleLine stage (if stage = 3 then cstr "from" else cstr "to") key destination r
      else match selectorOf stage t key with
        | none => bad ts
        | some selector => record ts ruleLine stage selector key destination r) r

/-- The text of a rule, up to its brace. -/
def ruleTest (ts : Stream) (profile : Profile) (legacy : Bool) :
    Except Failure ((Test × Capabilities) × Stream) := do
  let ts ← keyword ts "if"
  let address := isWord ts "address"
  let ts ← (if address then advance ts else keyword ts "header")
  let (m, ts) ← tags ts.length ⟨none, none, false⟩ ts
  if legacy = false ∧ m.comparator = false then bad ts
  else
    let (fields, ts) ← strings ts
    let (keys, ts) ← strings ts
    match fieldMask fields with
    | none => bad ts
    | some mask => do
      let ts ← take ts 123
      let ((mailbox, used), ts) ← action ts profile
      let ts ← keyword ts "stop"
      let ts ← take ts 59
      let ts ← take ts 125
      return ((⟨address, m, mask, keys, mailbox⟩,
        used ||| if m.comparison = some .regex then 4 else 0), ts)

theorem ruleTest_length {ts rest : Stream} {profile : Profile} {legacy : Bool} {x : Test × Capabilities}
    (h : ruleTest ts profile legacy = .ok (x, rest)) : rest.length < ts.length := by
  unfold ruleTest at h
  obtain ⟨ts1, h1, h⟩ := bind_eq_ok_iff.mp h
  obtain ⟨ts2, h2, h⟩ := bind_eq_ok_iff.mp h
  obtain ⟨⟨m, ts3⟩, h3, h⟩ := bind_eq_ok_iff.mp h
  dsimp only at h
  have hl2 : ts2.length < ts1.length := by
    split at h2
    · rename_i haddress
      exact advance_length h2 (token_of_isWord haddress)
    · exact keyword_length h2
  split at h
  · cases h
  · obtain ⟨⟨fields, ts4⟩, h4, h⟩ := bind_eq_ok_iff.mp h
    obtain ⟨⟨keys, ts5⟩, h5, h⟩ := bind_eq_ok_iff.mp h
    dsimp only at h
    split at h
    · cases h
    · obtain ⟨ts6, h6, h⟩ := bind_eq_ok_iff.mp h
      obtain ⟨⟨⟨mailbox, used⟩, ts7⟩, h7, h⟩ := bind_eq_ok_iff.mp h
      obtain ⟨ts8, h8, h⟩ := bind_eq_ok_iff.mp h
      obtain ⟨ts9, h9, h⟩ := bind_eq_ok_iff.mp h
      obtain ⟨ts10, h10, h⟩ := bind_eq_ok_iff.mp h
      cases h
      have hl1 := keyword_length h1
      have hl3 := tags_length h3
      have hl4 := strings_length h4
      have hl5 : ts5.length < ts4.length := strings_length h5
      have hl6 := take_length h6
      have hl7 := action_length h7
      have hl8 : ts8.length < ts7.length := keyword_length h8
      have hl9 := take_length h9
      have hl10 := take_length h10
      omega

/-- What a rule adds; `legacyStage` is the last stage of a historical script. -/
def ruleRecords (ts : Stream) (profile : Profile) (legacy : Bool) (ruleLine stage legacyStage : ℕ) (t : Test)
    (r : Recovered) : Except Failure (Recovered × ℕ) := do
  if legacy then
    if t.address = true ∨ t.tags.part.isSome = true ∨
        (t.tags.comparison ≠ some .equal ∧ t.tags.comparison ≠ some .contains) then bad ts
    else
      let stage ← legacyStageOf ts profile t
      -- historical generators emitted To before From in the route section
      if stage = 0 ∨ stage < legacyStage ∧ ¬ (stage = 3 ∧ legacyStage = 4) then bad ts
      else
        let r ← (if stage = 2 ∨ stage = 6 then builtinRule ts profile stage t r
          else recordRule ts profile legacy ruleLine stage t r)
        return (r, max stage legacyStage)
  else
    let r ← (if stage = 2 ∨ stage = 6 then builtinRule ts profile stage t r
      else recordRule ts profile legacy ruleLine stage t r)
    return (r, legacyStage)

/-- `rule`. -/
def rule (ts : Stream) (profile : Profile) (legacy : Bool) (stage legacyStage : ℕ) (r : Recovered) :
    Except Failure ((Recovered × ℕ) × Stream) := do
  let ((t, used), rest) ← ruleTest ts profile legacy
  let x ← ruleRecords rest profile legacy ts.line stage legacyStage t { r with used := r.used ||| used }
  return (x, rest)

/-- The rules of a block, as long as one begins. -/
def rules (profile : Profile) (legacy : Bool) (stage : ℕ) :
    ℕ → ℕ → Recovered → Stream → Except Failure ((Recovered × ℕ) × Stream)
  | 0, legacyStage, r, ts => .ok ((r, legacyStage), ts)
  | fuel + 1, legacyStage, r, ts =>
    if isWord ts "if" then do
      let ((r, legacyStage), ts) ← rule ts profile legacy stage legacyStage r
      rules profile legacy stage fuel legacyStage r ts
    else .ok ((r, legacyStage), ts)

theorem rule_length {ts rest : Stream} {profile : Profile} {legacy : Bool} {stage legacyStage : ℕ}
    {r : Recovered} {x : Recovered × ℕ} (h : rule ts profile legacy stage legacyStage r = .ok (x, rest)) :
    rest.length < ts.length := by
  unfold rule at h
  obtain ⟨⟨⟨t, used⟩, last⟩, htest, h⟩ := bind_eq_ok_iff.mp h
  obtain ⟨y, _, h⟩ := bind_eq_ok_iff.mp h
  cases h
  exact ruleTest_length htest

/-- Every rule takes tokens: the turns that a block is given suffice. -/
theorem rules_enough {profile : Profile} {legacy : Bool} {stage fuel legacyStage : ℕ} {r : Recovered} {ts : Stream}
    (h : ts.length ≤ fuel) (more : ℕ) :
    rules profile legacy stage (fuel + more) legacyStage r ts = rules profile legacy stage fuel legacyStage r ts := by
  induction fuel generalizing legacyStage r ts with
  | zero =>
    obtain rfl := List.eq_nil_of_length_eq_zero (Nat.le_zero.mp h)
    cases more <;> rfl
  | succ fuel ih =>
    rw [Nat.add_right_comm, rules, rules]
    split
    · refine bind_congr_ok fun x hx => ?_
      obtain ⟨⟨r', legacyStage'⟩, rest⟩ := x
      have hlen := rule_length hx
      exact ih (by omega)
    · rfl

/-! ### Scripts -/

/-- The capability that `require` names; 0 for none. -/
def capability (profile : Profile) (legacy : Bool) (name : Bytes) : Capabilities :=
  if name = cstr "fileinto" then 1
  else if name = cstr "mailbox" then 2
  else if name = cstr "regex" ∧ profile.regex = true then 4
  else if legacy = true ∧ name = cstr "variables" then 8
  else 0

def required (ts : Stream) (profile : Profile) (legacy : Bool) : Except Failure (Capabilities × Stream) :=
  if isWord ts "require" then do
    let ts ← advance ts
    let (names, ts) ← strings ts
    let ts ← take ts 59
    let capabilities ← names.foldlM (fun (seen : Capabilities) name =>
      let cap := capability profile legacy name
      if cap = 0 ∨ seen &&& cap ≠ 0 then invalid ts "unsupported/duplicate require extension"
      else .ok (seen ||| cap)) 0
    return (capabilities, ts)
  else .ok (0, ts)

/-- The seven blocks of a generated script. -/
def stages (profile : Profile) : List ℕ → Recovered → Stream → Except Failure (Recovered × Stream)
  | [], r, ts => .ok (r, ts)
  | stage :: rest, r, ts => do
    let opened (ts : Stream) (word : String) : Except Failure Stream :=
      if isWord ts word then advance ts else invalid ts "expected seven fixed policy stage blocks"
    let ts ← opened ts "if"
    let ts ← opened ts "true"
    let ts ← take ts 123
    let ((r, _), ts) ← rules profile false stage ts.length 0 r ts
    let ts ← take ts 125
    stages profile rest r ts

/-- The fallback, behind which the script ends. -/
def closing (ts : Stream) (profile : Profile) (capabilities : Capabilities) (r : Recovered) :
    Except Failure Stream := do
  let missing := "missing fallback, extra command or undeclared extension"
  let ((mailbox, used), ts) ← action ts profile
  if ← mappingIs ts profile mailbox (cstr "unsorted") .always then
    if ts.token ≠ .eof ∨ (r.used ||| used) &&& ~~~capabilities ≠ 0 then invalid ts missing else return ts
  else invalid ts missing

end Import

/-- `jf_import_names`. -/
def importName : ImportFile → Bytes
  | .filters => cstr "Filters.txt"
  | .aliases => cstr "Aliases.txt"
  | .whitelist => cstr "whitelist.abook"
  | .blacklist => cstr "blacklist.abook"

theorem importName_nul (file : ImportFile) : 0 ∉ importName file := by
  cases file <;> decide

theorem importPath_nul : 0 ∉ cstr "imported Sieve" := by decide

def importKind : ImportFile → SourceKind
  | .filters => .filters
  | .aliases => .aliases
  | .whitelist => .known
  | .blacklist => .blacklist

namespace Import

/-- The text of a file as a source. -/
def Recovered.source (r : Recovered) (file : ImportFile) : Source where
  kind := importKind file
  identity := importName file
  path := cstr "imported Sieve"
  data := r.text file
  identity_nul := importName_nul file
  path_nul := importPath_nul

/-- A line of a recovered file as the line of its rule in the script. -/
def Recovered.scriptLine (r : Recovered) (file : ImportFile) (line : ℕ) : Option ℕ :=
  if line = 0 then none else (r.lines file)[line - 1]?

def Recovered.relocate (r : Recovered) (x : Rule) : Rule :=
  match importFiles.find? fun file => x.sourceIdentity == importName file && (r.scriptLine file x.line).isSome with
  | none => x
  | some file => { x with line := (r.scriptLine file x.line).getD x.line }

def Recovered.relocateError (r : Recovered) (f : Failure) : Failure :=
  match f.error.source.bind fun source => importFiles[source]? with
  | none => f
  | some file => { f with error.line := (r.scriptLine file f.error.line).getD f.error.line }

/-- The policy of what was recovered. -/
def recoveredPolicy (posix : Posix) (ts : Stream) (legacy : Bool) (r : Recovered) : Except Failure Policy :=
  match parseRules posix (importFiles.map r.source) with
  | .error f => .error (r.relocateError f)
  | .ok parsed =>
    if parsed.countP isOrdered ≠ r.routes ∨ legacy = false ∧ parsed.length ≠ r.rules + 3 then
      invalid ts "duplicate predicates cannot preserve generated source precedence"
    else .ok (buildIndex (parsed.map r.relocate))

/-- The stages, blocks and fallback of a script. -/
def script (profile : Profile) (legacy : Bool) (ts : Stream) : Except Failure (Recovered × Stream) := do
  let (capabilities, ts) ← required ts profile legacy
  let (r, ts) ← if legacy then do
      let ((r, _), ts) ← rules profile true 0 ts.length 0 .empty ts
      pure (r, ts)
    else stages profile [1, 2, 3, 4, 5, 6, 7] .empty ts
  let ts ← closing ts profile capabilities r
  if legacy = false ∧ (r.builtins 2 ≠ 1 ∨ r.builtins 6 ≠ 1) then
    invalid ts "bounce and spam stages require their unique builtin"
  else return (r, ts)

end Import

/-- `jf_sieve_import` (`import.c:318`). -/
def sieveImport (posix : Posix) (profile : Profile) (legacy : Bool) (input : Bytes) : Except Failure Policy :=
  if inputMax < input.length ∨ input.contains 0 = true then
    .error (productError .eSieveImport 1 (cstr "oversized script or encoded NUL"))
  else match tokens lineMax input with
    | (.bad f, line) :: _ => .error (f.fail none line)
    | ts => do
      let (r, ts) ← Import.script profile legacy ts
      Import.recoveredPolicy posix ts legacy r

theorem Import.preserves_relocate (r : Import.Recovered) : Preserves r.relocate where
  kind x := by
    unfold Import.Recovered.relocate
    split <;> rfl
  fields x := by
    unfold Import.Recovered.relocate
    split <;> rfl
  predicate x := by
    unfold Import.Recovered.relocate
    split <;> rfl

/-- An accepted script is the parsed policy of what was recovered from it, but for the lines
of the rules, which are those of the script: it decides every message alike, and nothing was
recovered that the policy lacks. -/
theorem sieveImport_ok {posix : Posix} {profile : Profile} {legacy : Bool} {input : Bytes} {p : Policy}
    (h : sieveImport posix profile legacy input = .ok p) :
    ∃ (r : Import.Recovered) (q : Policy), policyParse posix (importFiles.map r.source) = .ok q ∧
      p.rules = q.rules.map r.relocate ∧ (∀ m, policyClassify posix p m = policyClassify posix q m) ∧
      q.rules.countP isOrdered = r.routes ∧ (legacy = false → q.rules.length = r.rules + 3) := by
  unfold sieveImport at h
  split at h
  · cases h
  · split at h
    · cases h
    · obtain ⟨⟨r, ts⟩, _, h⟩ := bind_eq_ok_iff.mp h
      dsimp only [Import.recoveredPolicy] at h
      split at h
      · cases h
      · rename_i parsed hparsed
        split at h
        · cases h
        · rename_i hcount
          cases h
          rw [not_or, not_not, not_and, not_not] at hcount
          have hparse : policyParse posix (importFiles.map r.source) = .ok (buildIndex parsed) := by
            rw [policyParse, hparsed]
            rfl
          exact ⟨r, buildIndex parsed, hparse, rfl,
            (Import.preserves_relocate r).policyClassify posix parsed, hcount.1, hcount.2⟩

/-- A historical script: a contact by its mailbox, a route by another. -/
def historicalScript : Bytes :=
  cstr "require [\"fileinto\", \"mailbox\"];\nif header :contains [\"From\", \"Sender\"] \"A <a@b>\" \x7bfileinto :create \"INBOX\"; stop;\x7d\nfileinto :create \"unsorted\";"

example : ((sieveImport samplePosix sampleProfile true historicalScript).map fun p =>
    p.rules.map fun r => (r.stage, r.predicate, r.line)) =
      .ok [(2, cstr "mailman-bounce", 0), (5, cstr "a@b", 2), (6, cstr "YES", 0), (8, [], 0)] := by
  decide +kernel

end JaroFilter
