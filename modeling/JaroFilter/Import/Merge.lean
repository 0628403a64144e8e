import JaroFilter.Contact.Append
import JaroFilter.Import.Quote
import JaroFilter.Policy.Snapshot

/-!
# Merging an import (`import.c:367-459`)

The rules of an imported policy that the current one lacks are appended to four
texts: the filters, the aliases and the two addressbooks. A rule the current
policy has must agree with it, in destination and in order.
-/

namespace JaroFilter

open Lib

/-- The input set of an import, in the order of `jf_import_names`. -/
inductive ImportFile where
  | filters | aliases | whitelist | blacklist
  deriving DecidableEq, Repr

def importFiles : List ImportFile := [.filters, .aliases, .whitelist, .blacklist]

/-- The codes of `jf_import_merge`'s diagnostics. -/
inductive MergeCode where
  | eImportCollision | eImportOrder | eImportBook
  deriving DecidableEq, Repr

/-- A nonzero return; a full buffer leaves no diagnostic. -/
structure MergeFailure where
  rc : ℕ
  error : Option (MergeCode × ℕ × Bytes)
  deriving DecidableEq, Repr

/-- `key_compare` (`import.c:367`). -/
def keyCompare (a b : Rule) : Ordering :=
  if a.stage ≠ b.stage then if a.stage < b.stage then .lt else .gt
  else (strcmp a.selector b.selector).then (strcmp a.predicate b.predicate)

/-- A current rule with its place in the policy. -/
structure Indexed where
  rule : Rule
  position : ℕ
  deriving DecidableEq, Repr

def indexCurrent (current : List Rule) : List Indexed :=
  qsort (fun a b => keyCompare a.rule b.rule) (current.zipIdx.map fun x => ⟨x.1, x.2⟩)

/-- The rules of a stage whose order counts (`import.c:437`). -/
def isOrdered (r : Rule) : Bool :=
  r.stage == 3 || r.stage == 4 || (r.stage == 5 && r.kind != .address)

/-- Builtins are never merged. -/
def isMerged (r : Rule) : Bool := !(r.stage == 2 || r.stage == 6 || r.stage == 8)

def targetFile (r : Rule) : ImportFile :=
  if r.stage = 1 then .blacklist
  else if r.stage = 7 then .aliases
  else if r.stage = 5 ∧ r.kind = .address then .whitelist
  else .filters

def ulongMax : ℕ := 2 ^ 64 - 1

/-- The digit loop of `book_next`, with what stands behind the digits. -/
def bookDigits : ℕ → Bytes → Option (ℕ × Bytes)
  | n, [] => some (n, [])
  | n, c :: s =>
    if 48 ≤ c ∧ c ≤ 57 then
      if (ulongMax - 9) / 10 < n then none else bookDigits (n * 10 + (c.toNat - 48)) s
    else some (n, c :: s)

/-- The number a bracket at the start of a line announces, with the limit. -/
def bookHeader (max : ℕ) (s : Bytes) : Option ℕ :=
  match bookDigits 0 s with
  | none => none
  | some (n, rest) =>
    if rest.length < s.length ∧ rest.head? = some 93 ∧ max ≤ n then
      if n = ulongMax then none else some (n + 1)
    else some max

/-- `book_next` (`import.c:388`); `start` at the start of a line. -/
def bookNextLoop : Bool → ℕ → Bytes → Option ℕ
  | _, max, [] => some max
  | start, max, c :: s =>
    if start = true ∧ c = 91 then
      match bookHeader max s with
      | none => none
      | some max => bookNextLoop (c == 10) max s
    else bookNextLoop (c == 10) max s

def bookNext (out : Bytes) : Option ℕ := bookNextLoop true 0 out

def bytesText (b : Bytes) (s : Bytes) : Option Bytes := bytesAdd cacheMax b s

/-- `append_book` (`import.c:403`): `none` for the last number or a full
buffer. -/
def appendBook (out address : Bytes) (next : ℕ) : Option Bytes :=
  if next = ulongMax then none
  else do
    let out ← bytesText out (cstr "\n[" ++ decimalText next ++ cstr "]\nname=Imported Sieve\nemail=")
    let out ← bytesText out address
    bytesText out (cstr "\n")

/-- A line of the filters or of the aliases (`import.c:448-452`). -/
def appendRule (out : Bytes) (r : Rule) : Option Bytes := do
  let isFilter := targetFile r == .filters
  let out ← if out ≠ [] ∧ out.getLast? ≠ some 10 then bytesText out (cstr "\n") else some out
  let out ← if isFilter then (bytesText out r.selector).bind fun out => bytesText out (cstr " ")
    else some out
  let out ← quote out r.predicate
  let out ← if isFilter ∧ r.stage ≠ 5 then
      (bytesText out (cstr " move ")).bind fun out => quote out r.logical
    else some out
  bytesText out (cstr "\n")

/-- The variables of the loop: `nextId` is absent until its book is ready. -/
structure MergeState where
  last : ℕ → ℕ
  output : ImportFile → Bytes
  nextId : ImportFile → Option ℕ

/-- A contact appended to its book (`import.c:443-447`). -/
def mergeBook (st : MergeState) (r : Rule) : Except MergeFailure MergeState :=
  let file := targetFile r
  match st.nextId file <|> bookNext (st.output file) with
  | none => .error ⟨4, none⟩
  | some next =>
    match appendBook (st.output file) r.predicate next with
    | none => .error ⟨4, some (.eImportBook, r.line, cstr "cannot append bounded abook record")⟩
    | some out => .ok { st with
        output := Function.update st.output file out
        nextId := Function.update st.nextId file (some (next + 1)) }

/-- A rule the current policy does not have. -/
def mergeNew (count : ℕ) (st : MergeState) (r : Rule) : Except MergeFailure MergeState :=
  -- a newly appended route cannot precede an existing imported route
  let st := if isOrdered r then { st with last := Function.update st.last r.stage (count + 1) } else st
  let file := targetFile r
  if file = .whitelist ∨ file = .blacklist then mergeBook st r
  else match appendRule (st.output file) r with
    | none => .error ⟨3, none⟩
    | some out => .ok { st with output := Function.update st.output file out }

/-- A rule the current policy has. -/
def mergeFound (st : MergeState) (r : Rule) (found : Indexed) : Except MergeFailure MergeState :=
  if r.kind ≠ found.rule.kind ∨ r.logical ≠ found.rule.logical then
    .error ⟨4, some (.eImportCollision, r.line, cstr "existing selector has a different destination")⟩
  else if isOrdered r = true ∧ found.position + 1 < st.last r.stage then
    .error ⟨4, some (.eImportOrder, r.line, cstr "existing rules conflict with imported source order")⟩
  else .ok { st with last := Function.update st.last r.stage (found.position + 1) }

def findRule (index : List Indexed) (r : Rule) : Option Indexed :=
  search (fun x => keyCompare r x.rule) index index.length 0 index.length

def mergeRule (index : List Indexed) (st : MergeState) (r : Rule) : Except MergeFailure MergeState :=
  if isMerged r = false then .ok st
  else match findRule index r with
    | some found => mergeFound st r found
    | none => mergeNew index.length st r

def mergeRules (index : List Indexed) : MergeState → List Rule → Except MergeFailure MergeState
  | st, [] => .ok st
  | st, r :: rs => do
    let st ← mergeRule index st r
    mergeRules index st rs

/-- `jf_import_merge` (`import.c:411`). -/
def importMerge (current imported : List Rule) (original : ImportFile → Bytes) :
    Except MergeFailure (ImportFile → Bytes) :=
  if importFiles.any fun f => decide (cacheMax < (original f).length) then .error ⟨3, none⟩
  else do
    let st ← mergeRules (indexCurrent current) ⟨fun _ => 0, original, fun _ => none⟩ imported
    return st.output

end JaroFilter
