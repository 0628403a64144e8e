import JaroFilter.Batch.Selection
import JaroFilter.Policy.Types

/-!
# The attempts of a batch (`jaro-filter.c:63-102`, `264-410`, `490-541`)

Every occurrence is snapshotted before the lock is taken, and the occurrences of
one inode share the item that keeps their attempt. What the calls on the mail
return is data of the run: other clients may replace, rename or re-create any
entry between two of them.
-/

namespace JaroFilter

open Lib

/-! ### `snapshot_paths` -/

/-- `jf_storage_same` (`storage.c:28`). -/
def storageSame (a b : Stat) : Bool :=
  a.dev == b.dev && a.ino == b.ino && a.size == b.size && a.mtim == b.mtim && a.ctim == b.ctim

/-- The result of `open_parent`. -/
inductive Opening where
  | opened
  | failed (memory : Bool)
  deriving DecidableEq, Repr

/-- What the calls of one iteration of the first loop return. -/
structure SnapshotLook where
  source : Bool
  parent : Opening
  entry : Option Stat
  deriving DecidableEq, Repr

def snapshotItem (item : Selected) (look : SnapshotLook) : Except ℕ Selected :=
  if item.snapshotted then .ok item
  else if look.source = false then .error 3
  else match look.parent with
    | .failed true => .error 3
    | .failed false => .ok { item with error := some (cstr "E_MESSAGE_OPEN") }
    | .opened =>
      match look.entry with
      | none => .ok { item with error := some (cstr "E_MESSAGE_OPEN") }
      | some st =>
        if st.regular then .ok { item with identity := st, snapshotted := true }
        else .ok { item with identity := st, error := some (cstr "E_MESSAGE_TYPE") }

/-- `compare_identities`, on items in the order of their addresses. -/
def compareIdentities : ℕ × Stat → ℕ × Stat → Ordering :=
  compareLex (compareOn fun x => x.2.dev) (compareLex (compareOn fun x => x.2.ino) (compareOn fun x => x.1))

/-- An item with the inode of the one before takes its first. -/
def firstBehind (previous : Option (Stat × ℕ)) (x : ℕ × Stat) : ℕ :=
  match previous with
  | some (p, f) => if x.2.dev = p.dev ∧ x.2.ino = p.ino then f else x.1
  | none => x.1

/-- The second loop (`jaro-filter.c:94-99`). -/
def linkFirsts : List (ℕ × Stat) → Option (Stat × ℕ) → List (ℕ × ℕ)
  | [], _ => []
  | x :: l, previous =>
    (x.1, firstBehind previous x) :: linkFirsts l (some (x.2, firstBehind previous x))

/-- The items that were snapshotted, with their indices. -/
def references (items : List Selected) : List (ℕ × Stat) :=
  (items.zipIdx.filter fun x => x.1.snapshotted).map fun x => (x.2, x.1.identity)

/-- The first of item `i` behind the loop, where it was given one. -/
def givenFirst (links : List (ℕ × ℕ)) (i : ℕ) : Option ℕ :=
  (links.find? fun x => x.1 = i).map Prod.snd

def setFirsts (items : List Selected) : List Selected :=
  let links := linkFirsts (qsort compareIdentities (references items)) none
  items.zipIdx.map fun x => { x.1 with first := (givenFirst links x.2).or x.1.first }

/-- The first loop (`jaro-filter.c:75-89`). -/
def snapshotItems (looks : ℕ → SnapshotLook) : List Selected → ℕ → Except ℕ (List Selected)
  | [], _ => .ok []
  | item :: items, i => do
    let item ← snapshotItem item (looks i)
    let items ← snapshotItems looks items (i + 1)
    .ok (item :: items)

def snapshotPaths (items : List Selected) (looks : ℕ → SnapshotLook) (room : Bool) :
    Except ℕ (List Selected) :=
  match snapshotItems looks items 0 with
  | .error rc => .error rc
  | .ok items => if room then .ok (setFirsts items) else .error 3

/-! ### `prepare` -/

/-- What `jf_headers_read` extracts. -/
structure Headers where
  message : Message
  wireSize : ℕ
  digest : Bytes
  deriving DecidableEq, Repr

/-- What the calls of `prepare` return. -/
structure PrepareLook where
  source : Bool
  parent : Opening
  /-- `fstatat` of the name before it is opened. -/
  before : Option Stat
  opened : Bool
  /-- `fstat` of the open file. -/
  status : Option Stat
  headers : Except (ℕ × Option Bytes) Headers
  /-- `fstat` of the open file and `fstatat` of the name behind the headers. -/
  after : Option Stat
  current : Option Stat
  /-- `jf_policy_classify`. -/
  verdict : Message → Except (ℕ × Bytes) Rule
  joined : Bool

/-- `struct decision`, without the paths; `held` is the last status of the open
file. -/
structure Decision where
  item : ℕ
  winner : Option Rule := none
  opened : Stat := {}
  held : Stat := {}
  detail : Option Bytes := none
  digest : Bytes := []
  headerSize : ℕ := 0
  fd : Bool := false
  rc : ℕ := 7
  noop : Bool := false
  quarantine : Bool := false

def Decision.fails (d : Decision) (detail : String) : Decision := { d with detail := some (cstr detail) }

/-- From the headers to the end (`jaro-filter.c:297-316`). -/
def prepareMessage (d : Decision) (look : PrepareLook) : Decision :=
  match look.headers with
  | .error (rc, code) =>
    { d with detail := code, rc := if rc ≠ 3 ∨ code = some (cstr "E_MESSAGE_IO") then 7 else rc }
  | .ok headers =>
    match look.after, look.current with
    | some after, some current =>
      if storageSame d.opened after && storageSame d.opened current then
        match look.verdict headers.message with
        | .error (rc, code) => { d with rc, detail := some code, held := after }
        | .ok winner =>
          if look.joined then
            { d with winner := some winner, headerSize := headers.wireSize, digest := headers.digest,
                     held := after, rc := 0 }
          else { d with winner := some winner, held := after, rc := 3 }
      else d.fails "E_MESSAGE_CHANGED"
    | _, _ => d.fails "E_MESSAGE_CHANGED"

/-- From the open file to the headers (`jaro-filter.c:287-296`); a classify run has no
storage, and so no lock. -/
def prepareFile (d : Decision) (before : Stat) (lock : Option Stat) (look : PrepareLook) : Decision :=
  if look.opened = false then d.fails "E_MESSAGE_OPEN"
  else match look.status with
    | none => { d with fd := true, quarantine := lock.isSome }.fails "E_MESSAGE_CHANGED"
    | some opened =>
      let d := { d with fd := true, opened }
      if ∃ l ∈ lock, opened.dev = l.dev ∧ opened.ino = l.ino then
        { d with quarantine := true }.fails "E_MESSAGE_CHANGED"
      else if opened.regular = false ∨ storageSame before opened = false then d.fails "E_MESSAGE_CHANGED"
      else prepareMessage d look

/-- From the parent to the open file (`jaro-filter.c:279-286`). -/
def prepareEntry (d : Decision) (item : Selected) (lock : Option Stat) (look : PrepareLook) : Decision :=
  match look.parent with
  | .failed true => { d with rc := 3 }.fails "E_MEMORY"
  | .failed false => d.fails "E_MESSAGE_OPEN"
  | .opened =>
    match look.before with
    | none => d.fails "E_MESSAGE_OPEN"
    | some before =>
      if before.regular = false then d.fails "E_MESSAGE_TYPE"
      else if ∃ l ∈ lock, before.dev = l.dev ∧ before.ino = l.ino then d.fails "E_MESSAGE_TYPE"
      else if item.snapshotted ∧ storageSame before item.identity = false then d.fails "E_MESSAGE_CHANGED"
      else prepareFile d before lock look

/-- The flag of the item that keeps an inode's attempt. -/
def setAttempted (items : List Selected) (f : ℕ) (attempted : Bool) : List Selected :=
  items.modify f fun item => { item with attempted }

def attemptedAt (items : List Selected) (f : ℕ) : Bool := (items[f]?.map Selected.attempted).getD false

/-- `prepare` (`jaro-filter.c:264-317`); the attempts of an inode are counted where there
is a storage. -/
def prepare (items : List Selected) (i : ℕ) (item : Selected) (lock : Option Stat) (look : PrepareLook) :
    List Selected × Decision :=
  let d : Decision := { item := i }
  if look.source = false then (items, { d with rc := 3 }.fails "E_MEMORY")
  else match item.error with
    | some code => (items, { d with detail := some code })
    | none =>
      match lock.bind fun _ => item.first with
      | none => (items, prepareEntry d item lock look)
      | some f =>
        if attemptedAt items f then (items, d.fails "E_MESSAGE_CHANGED")
        else (setAttempted items f true, prepareEntry d item lock look)

/-! ### Moves, closes and records -/

/-- A call of `jf_storage_move` for an occurrence: the identity it is to expect,
the last status of the open file, and what it returns. -/
structure MoveCall where
  item : ℕ
  expected : Stat
  held : Stat
  result : ℕ
  deriving DecidableEq, Repr

/-- Whether the run was stopped before the call, and what the call returns. -/
structure MoveLook where
  stopped : Bool
  result : ℕ
  detail : Bytes
  deriving DecidableEq, Repr

/-- `move_decision` (`jaro-filter.c:319-342`). -/
def moveDecision (d : Decision) (look : MoveLook) : Decision × List MoveCall :=
  if d.rc ≠ 0 then (d, [])
  else if look.stopped then ({ d with rc := 7, detail := some (cstr "E_INTERRUPTED") }, [])
  else
    let call := ⟨d.item, d.opened, d.held, look.result⟩
    if look.result = 1 then ({ d with rc := 0, noop := true }, [call])
    else ({ d with rc := look.result, detail := some look.detail }, [call])

/-- `close_decision` (`jaro-filter.c:344-352`). -/
def closeDecision (items : List Selected) (d : Decision) (closed : Bool) : List Selected × Decision :=
  let d := if d.fd && !d.quarantine then
      if !closed && d.rc == 0 then { d with rc := 7, detail := some (cstr "E_MESSAGE_IO"), fd := false }
      else { d with fd := false }
    else d
  if d.noop && d.rc == 0 then
    match items[d.item]?.bind Selected.first with
    | some f => (setAttempted items f false, d)
    | none => (items, d)
  else (items, d)

/-- The status `emit_decision` returns, by whether its record was written. -/
def emitStatus (d : Decision) (written : Bool) : ℕ := if d.rc ≠ 3 && !written then 3 else d.rc

/-! ### The loops -/

/-- The calls for one occurrence. -/
structure Visit where
  interrupted : Bool
  prepare : PrepareLook
  /-- The parent directory is the one of the preflight (`jaro-filter.c:505`). -/
  parentKept : Bool
  move : MoveLook
  closed : Bool
  written : Bool

/-- `classify` with a storage (`jaro-filter.c:376-390`). -/
def classifyItem (items : List Selected) (i : ℕ) (item : Selected) (lock : Stat) (v : Visit) :
    List Selected × List MoveCall × ℕ :=
  let p := prepare items i item (some lock) v.prepare
  let m := moveDecision p.2 v.move
  let c := closeDecision p.1 m.1 v.closed
  (c.1, m.2, if c.2.quarantine then 3 else emitStatus c.2 v.written)

/-- The loop without a pool (`jaro-filter.c:603-608`). -/
def serial (lock : Stat) : List Visit → ℕ → List Selected → List MoveCall
  | [], _, _ => []
  | v :: visits, n, items =>
    match items[n]? with
    | none => []
    | some item =>
      if v.interrupted then []
      else
        let r := classifyItem items n item lock v
        r.2.1 ++ if r.2.2 = 3 then [] else serial lock visits (n + 1) r.1

/-- `JF_POOL_WINDOW`. -/
def poolWindow : ℕ := 32

/-- The loop that fills a window (`jaro-filter.c:502-510`). -/
def fillWindow (lock : Stat) : List Visit → ℕ → ℕ → List Selected → List Selected × List (Decision × Visit)
  | [], _, _, items => (items, [])
  | v :: visits, start, count, items =>
    if count = poolWindow then (items, [])
    else match items[start + count]? with
      | none => (items, [])
      | some item =>
        if v.interrupted then (items, [])
        else
          let p := prepare items (start + count) item (some lock) v.prepare
          let d := if p.2.rc = 0 ∧ v.parentKept = false then { p.2 with rc := 7 }.fails "E_MESSAGE_CHANGED"
            else p.2
          if d.rc = 3 ∨ d.quarantine then (p.1, [(d, v)])
          else
            let rest := fillWindow lock visits start (count + 1) p.1
            (rest.1, (d, v) :: rest.2)

/-- The decisions of a window, closed one after the other. -/
def closeWindow : List Selected → List (Decision × Visit) → List Selected × List (Decision × Visit)
  | items, [] => (items, [])
  | items, (d, v) :: ds =>
    let c := closeDecision items d v.closed
    let rest := closeWindow c.1 ds
    (rest.1, (c.2, v) :: rest.2)

/-- The records of a window end with the first status 3. -/
def windowFails (ds : List (Decision × Visit)) : Bool := ds.any fun x => emitStatus x.1 x.2.written == 3

/-- One window as the environment answers it; `stopped` is the pool's state behind
the records, with what the flush of the output leaves. -/
structure Round where
  visits : List Visit
  stopped : Bool

/-- The loop with a pool (`jaro-filter.c:500-537`); the moves of a window may run
in any order. -/
def parallel (lock : Stat) : List Round → ℕ → List Selected → List MoveCall
  | [], _, _ => []
  | r :: rounds, start, items =>
    let w := fillWindow lock r.visits start 0 items
    let moved := w.2.map fun x => (moveDecision x.1 x.2.move, x.2)
    let closed := closeWindow w.1 (moved.map fun x => (x.1.1, x.2))
    moved.flatMap (fun x => x.1.2) ++
      if windowFails closed.2 || w.2.any (fun x => x.1.quarantine) || r.stopped then []
      else parallel lock rounds (start + w.2.length) closed.1

/-- How a batch is run. -/
inductive Course where
  | alone (visits : List Visit)
  | pooled (rounds : List Round)

/-- An apply run from its snapshot on (`jaro-filter.c:590-609`): the calls of
`jf_storage_move` that it makes. -/
def applyBatch (items : List Selected) (lock : Stat) : Course → List MoveCall
  | .alone visits => serial lock visits 0 items
  | .pooled rounds => parallel lock rounds 0 items

/-! ### A decision that is moved -/

theorem storageSame_iff {a b : Stat} : storageSame a b = true ↔
    a.dev = b.dev ∧ a.ino = b.ino ∧ a.size = b.size ∧ a.mtim = b.mtim ∧ a.ctim = b.ctim := by
  simp only [storageSame, Bool.and_eq_true, beq_iff_eq, and_assoc]

theorem storageSame_trans {a b c : Stat} (h : storageSame a b = true) (h' : storageSame b c = true) :
    storageSame a c = true := by
  rw [storageSame_iff] at h h' ⊢
  exact ⟨h.1.trans h'.1, h.2.1.trans h'.2.1, h.2.2.1.trans h'.2.2.1, h.2.2.2.1.trans h'.2.2.2.1,
    h.2.2.2.2.trans h'.2.2.2.2⟩

theorem storageSame_symm {a b : Stat} (h : storageSame a b = true) : storageSame b a = true := by
  rw [storageSame_iff] at h ⊢
  exact ⟨h.1.symm, h.2.1.symm, h.2.2.1.symm, h.2.2.2.1.symm, h.2.2.2.2.symm⟩

/-- What a decision with status 0 says of its item. -/
structure DecisionOk (item : Selected) (i : ℕ) (d : Decision) : Prop where
  index : d.item = i
  noop : d.noop = false
  error : d.rc = 0 → item.error = none
  same : d.rc = 0 → item.snapshotted = true →
    storageSame item.identity d.opened = true ∧ storageSame item.identity d.held = true

theorem DecisionOk.of_failed {item : Selected} {i : ℕ} {d : Decision} (hi : d.item = i)
    (hn : d.noop = false) (hrc : d.rc ≠ 0) : DecisionOk item i d :=
  ⟨hi, hn, fun h => absurd h hrc, fun h => absurd h hrc⟩

theorem prepareMessage_prepared {item : Selected} {i : ℕ} {d : Decision} {look : PrepareLook}
    (hi : d.item = i) (hn : d.noop = false) (hrc : d.rc = 7) (he : item.error = none)
    (hs : item.snapshotted = true → storageSame item.identity d.opened = true) :
    DecisionOk item i (prepareMessage d look) := by
  have hseven : d.rc ≠ 0 := by omega
  rw [prepareMessage]
  split
  · rename_i rc code _
    refine .of_failed hi hn ?_
    show (if rc ≠ 3 ∨ code = some (cstr "E_MESSAGE_IO") then 7 else rc) ≠ 0
    split <;> omega
  · split
    · split
      · rename_i after current _ _ hsame
        rw [Bool.and_eq_true] at hsame
        split
        · exact ⟨hi, hn, fun _ => he, fun _ hsnap => ⟨hs hsnap, storageSame_trans (hs hsnap) hsame.1⟩⟩
        · split
          · exact ⟨hi, hn, fun _ => he, fun _ hsnap => ⟨hs hsnap, storageSame_trans (hs hsnap) hsame.1⟩⟩
          · exact .of_failed hi hn (Nat.succ_ne_zero 2)
      · exact .of_failed hi hn hseven
    · exact .of_failed hi hn hseven

theorem prepareEntry_prepared {item : Selected} {i : ℕ} {d : Decision} {lock : Option Stat}
    {look : PrepareLook}
    (hi : d.item = i) (hn : d.noop = false) (hrc : d.rc = 7) (he : item.error = none) :
    DecisionOk item i (prepareEntry d item lock look) := by
  have hseven : d.rc ≠ 0 := by omega
  rw [prepareEntry]
  split
  · exact .of_failed hi hn (Nat.succ_ne_zero 2)
  · exact .of_failed hi hn hseven
  · split
    · exact .of_failed hi hn hseven
    · rename_i before _
      split
      · exact .of_failed hi hn hseven
      · split
        · exact .of_failed hi hn hseven
        · split
          · exact .of_failed hi hn hseven
          · rename_i hsnapshot
            have hbefore : item.snapshotted = true → storageSame before item.identity = true := fun hsnap => by
              cases hs : storageSame before item.identity with
              | true => rfl
              | false => exact absurd ⟨hsnap, hs⟩ hsnapshot
            rw [prepareFile]
            split
            · exact .of_failed hi hn hseven
            · split
              · exact .of_failed hi hn hseven
              · rename_i opened _
                split
                · exact .of_failed hi hn hseven
                · split
                  · exact .of_failed hi hn hseven
                  · rename_i hopened
                    rw [not_or, Bool.not_eq_false, Bool.not_eq_false] at hopened
                    exact prepareMessage_prepared hi hn hrc he fun hsnap =>
                      storageSame_trans (storageSame_symm (hbefore hsnap)) hopened.2

/-! ### One attempt for each first -/

/-- An item without its attempt. -/
def Selected.plain (item : Selected) : Selected := { item with attempted := false }

theorem DecisionOk.congr {item item' : Selected} {i : ℕ} {d : Decision} (h : DecisionOk item i d)
    (he : item.plain = item'.plain) : DecisionOk item' i d := by
  have herror : item.error = item'.error :=
    (congrArg Selected.error he : item.plain.error = item'.plain.error)
  have hidentity : item.identity = item'.identity :=
    (congrArg Selected.identity he : item.plain.identity = item'.plain.identity)
  have hsnapshotted : item.snapshotted = item'.snapshotted :=
    (congrArg Selected.snapshotted he : item.plain.snapshotted = item'.plain.snapshotted)
  exact ⟨h.index, h.noop, fun hrc => herror ▸ h.error hrc,
    fun hrc hs => hidentity ▸ h.same hrc (hsnapshotted ▸ hs)⟩

section Attempts

variable (start : List Selected)

/-- The item that keeps the attempt of item `i`. -/
def firstOf (i : ℕ) : Option ℕ := start[i]?.bind Selected.first

/-- A call that does something, of an occurrence of `f`. -/
def acts (f : ℕ) (c : MoveCall) : Bool := c.result ≠ 1 ∧ firstOf start c.item = some f

def mayMove (f : ℕ) (d : Decision) : Bool := d.rc = 0 ∧ firstOf start d.item = some f

/-- A no-op of an occurrence of `f`, whose attempt is given back. -/
def givesBack (f : ℕ) (d : Decision) : Bool := d.noop ∧ d.rc = 0 ∧ firstOf start d.item = some f

/-- Only attempts differ. -/
structure SameItems (items : List Selected) : Prop where
  length : items.length = start.length
  same : ∀ i : ℕ, items[i]?.map Selected.plain = start[i]?.map Selected.plain

/-- Every first is an item. -/
def FirstsValid : Prop := ∀ i f, firstOf start i = some f → f < start.length

variable {start}

theorem SameItems.first {items : List Selected} (h : SameItems start items) (i : ℕ) :
    items[i]?.bind Selected.first = firstOf start i := by
  have hsame := congrArg (fun o : Option Selected => o.bind Selected.first) (h.same i)
  simp only [Option.bind_map, Function.comp_def, Selected.plain] at hsame
  exact hsame

theorem SameItems.item {items : List Selected} (h : SameItems start items) {i : ℕ} {item : Selected}
    (hi : items[i]? = some item) : ∃ item', start[i]? = some item' ∧ item.plain = item'.plain := by
  have hsame := h.same i
  rw [hi, Option.map_some] at hsame
  obtain ⟨item', hitem', heq⟩ := Option.map_eq_some_iff.mp hsame.symm
  exact ⟨item', hitem', heq.symm⟩

theorem SameItems.setAttempted {items : List Selected} (h : SameItems start items) (f : ℕ) (b : Bool) :
    SameItems start (setAttempted items f b) := by
  refine ⟨(List.length_modify _ _ _).trans h.length, fun i => ?_⟩
  rw [← h.same i, JaroFilter.setAttempted, List.getElem?_modify]
  cases items[i]? with
  | none => rfl
  | some item =>
    by_cases hf : f = i
    · simp [hf, Selected.plain]
    · simp [hf]

theorem attemptedAt_set {items : List Selected} {f : ℕ} (hf : f < items.length) (b : Bool) (g : ℕ) :
    attemptedAt (setAttempted items f b) g = if f = g then b else attemptedAt items g := by
  rw [attemptedAt, setAttempted, List.getElem?_modify]
  by_cases hg : f = g
  · subst hg
    simp [List.getElem?_eq_getElem hf]
  · simp [hg, attemptedAt]

/-- Preparing an occurrence takes the attempt of its first. -/
theorem prepare_spec (hvalid : FirstsValid start) {items : List Selected} (h : SameItems start items) {i : ℕ}
    {item : Selected} (hi : items[i]? = some item) (lock : Stat) (look : PrepareLook) :
    SameItems start (prepare items i item (some lock) look).1 ∧
    DecisionOk item i (prepare items i item (some lock) look).2 ∧
    ∀ f, (attemptedAt items f).toNat + (mayMove start f (prepare items i item (some lock) look).2).toNat ≤
      (attemptedAt (prepare items i item (some lock) look).1 f).toNat := by
  have hfirst : item.first = firstOf start i := by rw [← h.first i, hi]; rfl
  have hnone : ∀ {d : Decision} {f}, d.rc ≠ 0 → (mayMove start f d).toNat = 0 := fun hrc => by
    simp [mayMove, hrc]
  rw [prepare, Option.bind_some]
  split
  · exact ⟨h, .of_failed rfl rfl (Nat.succ_ne_zero 2), fun f => by rw [hnone (Nat.succ_ne_zero 2)]; rfl⟩
  · split
    · exact ⟨h, .of_failed rfl rfl (Nat.succ_ne_zero 6), fun f => by rw [hnone (Nat.succ_ne_zero 6)]; rfl⟩
    · rename_i herror
      split
      · rename_i hno
        have hprepared : DecisionOk item i (prepareEntry { item := i } item (some lock) look) :=
          prepareEntry_prepared rfl rfl rfl herror
        refine ⟨h, hprepared, fun f => ?_⟩
        have hmove : mayMove start f (prepareEntry { item := i } item (some lock) look) = false := by
          rw [mayMove, hprepared.index, ← hfirst, hno]
          simp
        rw [hmove]
        rfl
      · rename_i f hsome
        split
        · exact ⟨h, .of_failed rfl rfl (Nat.succ_ne_zero 6), fun f => by
            rw [hnone (Nat.succ_ne_zero 6)]; rfl⟩
        · rename_i hfree
          have hprepared : DecisionOk item i (prepareEntry { item := i } item (some lock) look) :=
            prepareEntry_prepared rfl rfl rfl herror
          refine ⟨h.setAttempted f true, hprepared, fun g => ?_⟩
          have hlt : f < items.length := by
            rw [h.length]
            exact hvalid i f (hfirst ▸ hsome)
          rw [attemptedAt_set hlt]
          by_cases hg : f = g
          · subst hg
            rw [if_pos rfl, Bool.not_eq_true] at *
            rw [hfree]
            cases mayMove start f (prepareEntry { item := i } item (some lock) look) <;> decide
          · have hmove : mayMove start g (prepareEntry { item := i } item (some lock) look) = false := by
              rw [mayMove, hprepared.index, ← hfirst, hsome]
              simp [hg]
            rw [if_neg hg, hmove]
            rfl

/-- What a call does or a no-op gives back was prepared. -/
theorem moveDecision_spec {item : Selected} {i : ℕ} {d : Decision} (h : DecisionOk item i d) (look : MoveLook)
    (f : ℕ) : (moveDecision d look).2.countP (acts start f) +
      (givesBack start f (moveDecision d look).1).toNat ≤ (mayMove start f d).toNat := by
  rw [moveDecision]
  by_cases hrc : d.rc = 0
  · rw [if_neg (not_not.mpr hrc)]
    by_cases hf : firstOf start d.item = some f
    · have hmay : mayMove start f d = true := by simp [mayMove, hrc, hf]
      rw [hmay]
      split
      · simp [givesBack]
      · by_cases hone : look.result = 1
        · simp [hone, acts, givesBack, hf]
        · simp [hone, acts, givesBack, h.noop, hf]
    · split
      · simp [givesBack]
      · by_cases hone : look.result = 1
        · simp [hone, acts, givesBack, hf]
        · simp [hone, acts, givesBack, hf]
  · rw [if_pos hrc]
    simp [givesBack, hrc]

theorem closeDecision_spec (hvalid : FirstsValid start) {items : List Selected} (h : SameItems start items)
    (d : Decision) (closed : Bool) : SameItems start (closeDecision items d closed).1 ∧
    ∀ f, (attemptedAt items f).toNat ≤ (attemptedAt (closeDecision items d closed).1 f).toNat +
      (givesBack start f d).toNat := by
  have hkeep : SameItems start items ∧ ∀ f, (attemptedAt items f).toNat ≤
      (attemptedAt items f).toNat + (givesBack start f d).toNat := ⟨h, fun f => Nat.le_add_right _ _⟩
  rw [closeDecision]
  obtain ⟨d', hd'⟩ : ∃ d', d' = (if d.fd && !d.quarantine then
      if !closed && d.rc == 0 then { d with rc := 7, detail := some (cstr "E_MESSAGE_IO"), fd := false }
      else { d with fd := false }
    else d) := ⟨_, rfl⟩
  have hback : d'.item = d.item ∧ d'.noop = d.noop ∧ (d'.rc = 0 → d.rc = 0) := by
    rw [hd']
    split
    · split
      · exact ⟨rfl, rfl, fun hc => (by cases hc)⟩
      · exact ⟨rfl, rfl, id⟩
    · exact ⟨rfl, rfl, id⟩
  simp only [← hd']
  split
  · rename_i hnoop
    rw [Bool.and_eq_true, beq_iff_eq] at hnoop
    rw [h.first, hback.1]
    split
    · rename_i f hf
      refine ⟨h.setAttempted f false, fun g => ?_⟩
      have hlt : f < items.length := by
        rw [h.length]
        exact hvalid d.item f hf
      rw [attemptedAt_set hlt]
      by_cases hg : f = g
      · subst hg
        have hgives : givesBack start f d = true := by
          simp [givesBack, ← hback.2.1, hnoop.1, hback.2.2 hnoop.2, hf]
        rw [hgives]
        exact Nat.le_trans (Bool.toNat_le _) (Nat.le_add_left _ _)
      · rw [if_neg hg]
        exact Nat.le_add_right _ _
    · exact hkeep
  · exact hkeep

/-! ### A window -/

theorem countP_cons_toNat {β : Type} (p : β → Bool) (a : β) (l : List β) :
    (a :: l).countP p = (p a).toNat + l.countP p := by
  rw [List.countP_cons]
  cases p a <;> simp [Nat.add_comm]

/-- A prepared decision of the batch. -/
def Begun (start : List Selected) (d : Decision) : Prop :=
  ∃ item, start[d.item]? = some item ∧ DecisionOk item d.item d

theorem begun_of_prepared {items : List Selected} (h : SameItems start items) {i : ℕ} {item : Selected}
    (hi : items[i]? = some item) {d : Decision} (hd : DecisionOk item i d) : Begun start d := by
  obtain ⟨item', hitem', heq⟩ := h.item hi
  have hindex := hd.index
  subst hindex
  exact ⟨item', hitem', hd.congr heq⟩

/-- A decision that fails behind its preparation. -/
theorem Begun.fails {d : Decision} (h : Begun start d) (detail : String) :
    Begun start ({ d with rc := 7 }.fails detail) := by
  obtain ⟨item, hitem, hd⟩ := h
  exact ⟨item, hitem, .of_failed rfl hd.noop (Nat.succ_ne_zero 6)⟩

theorem fillWindow_spec (hvalid : FirstsValid start) (lock : Stat) (visits : List Visit) (from' count : ℕ)
    {items : List Selected} (h : SameItems start items) :
    SameItems start (fillWindow lock visits from' count items).1 ∧
    (∀ x ∈ (fillWindow lock visits from' count items).2, Begun start x.1) ∧
    ∀ f, (attemptedAt items f).toNat +
        (fillWindow lock visits from' count items).2.countP (fun x => mayMove start f x.1) ≤
      (attemptedAt (fillWindow lock visits from' count items).1 f).toNat := by
  have hempty : SameItems start items ∧ (∀ x ∈ ([] : List (Decision × Visit)), Begun start x.1) ∧
      ∀ f, (attemptedAt items f).toNat +
        ([] : List (Decision × Visit)).countP (fun x => mayMove start f x.1) ≤ (attemptedAt items f).toNat :=
    ⟨h, fun _ hx => absurd hx List.not_mem_nil, fun _ => Nat.le_refl _⟩
  induction visits generalizing count items with
  | nil => exact hempty
  | cons v visits ih =>
    rw [fillWindow]
    split
    · exact hempty
    · split
      · exact hempty
      · rename_i item hitem
        split
        · exact hempty
        · obtain ⟨hstill, hprepared, hattempt⟩ := prepare_spec hvalid h hitem lock v.prepare
          obtain ⟨p, hp⟩ : ∃ p, p = prepare items (from' + count) item lock v.prepare := ⟨_, rfl⟩
          rw [← hp] at hstill hprepared hattempt
          simp only [← hp]
          obtain ⟨d, hd⟩ : ∃ d, d = (if p.2.rc = 0 ∧ v.parentKept = false then
              { p.2 with rc := 7 }.fails "E_MESSAGE_CHANGED" else p.2) := ⟨_, rfl⟩
          have hbegun : Begun start d := by
            have hb := begun_of_prepared h hitem hprepared
            rw [hd]
            split
            · exact hb.fails _
            · exact hb
          have hmay : ∀ f, (mayMove start f d).toNat ≤ (mayMove start f p.2).toNat := fun f => by
            rw [hd]
            split
            · simp [mayMove, Decision.fails]
            · exact Nat.le_refl _
          simp only [← hd]
          split
          · refine ⟨hstill, fun x hx => List.mem_singleton.mp hx ▸ hbegun, fun f => ?_⟩
            have hone := hattempt f
            have hle := hmay f
            rw [countP_cons_toNat, List.countP_nil]
            show _ + ((mayMove start f d).toNat + 0) ≤ (attemptedAt p.1 f).toNat
            omega
          · obtain ⟨hstill', hbegun', hattempt'⟩ := ih (count + 1) hstill
              ⟨hstill, fun _ hx => absurd hx List.not_mem_nil, fun _ => Nat.le_refl _⟩
            refine ⟨hstill', fun x hx => ?_, fun f => ?_⟩
            · obtain rfl | hx := List.mem_cons.mp hx
              · exact hbegun
              · exact hbegun' x hx
            · have hone := hattempt f
              have hle := hmay f
              have hrest := hattempt' f
              rw [countP_cons_toNat]
              show _ + ((mayMove start f d).toNat + _) ≤
                (attemptedAt (fillWindow lock visits from' (count + 1) p.1).1 f).toNat
              omega

theorem closeWindow_spec (hvalid : FirstsValid start) (ds : List (Decision × Visit)) {items : List Selected}
    (h : SameItems start items) : SameItems start (closeWindow items ds).1 ∧
    ∀ f, (attemptedAt items f).toNat ≤ (attemptedAt (closeWindow items ds).1 f).toNat +
      ds.countP fun x => givesBack start f x.1 := by
  induction ds generalizing items with
  | nil => exact ⟨h, fun _ => Nat.le_refl _⟩
  | cons x ds ih =>
    obtain ⟨hstill, hone⟩ := closeDecision_spec hvalid h x.1 x.2.closed
    obtain ⟨hstill', hrest⟩ := ih hstill
    refine ⟨hstill', fun f => ?_⟩
    have hone := hone f
    have hrest := hrest f
    rw [countP_cons_toNat]
    show _ ≤ (attemptedAt (closeWindow (closeDecision items x.1 x.2.closed).1 ds).1 f).toNat + _
    omega

/-- The moves of a window. -/
theorem moveWindow_spec {ds : List (Decision × Visit)} (h : ∀ x ∈ ds, Begun start x.1) (f : ℕ) :
    (ds.flatMap fun x => (moveDecision x.1 x.2.move).2).countP (acts start f) +
      ds.countP (fun x => givesBack start f (moveDecision x.1 x.2.move).1) ≤
    ds.countP fun x => mayMove start f x.1 := by
  induction ds with
  | nil => exact Nat.le_refl _
  | cons x ds ih =>
    obtain ⟨item, -, hx⟩ := h x (by simp)
    have hone : (moveDecision x.1 x.2.move).2.countP (acts start f) +
        (givesBack start f (moveDecision x.1 x.2.move).1).toNat ≤ (mayMove start f x.1).toNat :=
      moveDecision_spec hx x.2.move f
    have hrest := ih fun y hy => h y (List.mem_cons_of_mem _ hy)
    rw [List.flatMap_cons, List.countP_append, countP_cons_toNat, countP_cons_toNat]
    omega

/-- What a call is made on. -/
def Expected (start : List Selected) (c : MoveCall) : Prop :=
  ∃ item, start[c.item]? = some item ∧ item.error = none ∧ (item.snapshotted = true →
    storageSame item.identity c.expected = true ∧ storageSame item.identity c.held = true)

theorem moveDecision_expected {d : Decision} (h : Begun start d) (look : MoveLook) :
    ∀ c ∈ (moveDecision d look).2, Expected start c := by
  obtain ⟨item, hitem, hd⟩ := h
  intro c hc
  rw [moveDecision] at hc
  split at hc
  · cases hc
  · rename_i hrc
    have hrc : d.rc = 0 := not_not.mp hrc
    have hc : c = ⟨d.item, d.opened, d.held, look.result⟩ := by
      split at hc
      · cases hc
      · split at hc <;> exact List.mem_singleton.mp hc
    rw [hc]
    exact ⟨item, hitem, hd.error hrc, hd.same hrc⟩

/-! ### The loops -/

/-- The calls of a run, with the attempts already taken. -/
structure AttemptsOnce (start items : List Selected) (calls : List MoveCall) : Prop where
  expected : ∀ c ∈ calls, Expected start c
  once : ∀ f, calls.countP (acts start f) + (attemptedAt items f).toNat ≤ 1

theorem AttemptsOnce.nil (items : List Selected) : AttemptsOnce start items [] :=
  ⟨fun _ hc => absurd hc List.not_mem_nil, fun _ => by
    rw [List.countP_nil, Nat.zero_add]
    exact Bool.toNat_le _⟩

/-- A window, with the calls behind it. -/
theorem AttemptsOnce.window {items filled closed : List Selected} {ds : List (Decision × Visit)}
    {calls : List MoveCall} (hrest : AttemptsOnce start closed calls) (hbegun : ∀ x ∈ ds, Begun start x.1)
    (hfill : ∀ f, (attemptedAt items f).toNat + ds.countP (fun x => mayMove start f x.1) ≤
      (attemptedAt filled f).toNat)
    (hclose : ∀ f, (attemptedAt filled f).toNat ≤ (attemptedAt closed f).toNat +
      ds.countP fun x => givesBack start f (moveDecision x.1 x.2.move).1) :
    AttemptsOnce start items ((ds.flatMap fun x => (moveDecision x.1 x.2.move).2) ++ calls) := by
  refine ⟨fun c hc => ?_, fun f => ?_⟩
  · obtain hc | hc := List.mem_append.mp hc
    · obtain ⟨x, hx, hc⟩ := List.mem_flatMap.mp hc
      exact moveDecision_expected (hbegun x hx) _ c hc
    · exact hrest.expected c hc
  · have hmove := moveWindow_spec hbegun f
    have hfill := hfill f
    have hclose := hclose f
    have honce := hrest.once f
    rw [List.countP_append]
    omega

theorem serial_once (hvalid : FirstsValid start) (lock : Stat) (visits : List Visit) (n : ℕ)
    {items : List Selected} (h : SameItems start items) : AttemptsOnce start items (serial lock visits n items) := by
  induction visits generalizing n items with
  | nil => exact .nil items
  | cons v visits ih =>
    rw [serial]
    split
    · exact .nil items
    · rename_i item hitem
      split
      · exact .nil items
      · obtain ⟨hstill, hprepared, hattempt⟩ := prepare_spec hvalid h hitem lock v.prepare
        have hbegun := begun_of_prepared h hitem hprepared
        obtain ⟨hclosed, hback⟩ := closeDecision_spec hvalid hstill
          (moveDecision (prepare items n item lock v.prepare).2 v.move).1 v.closed
        have hrest : AttemptsOnce start (classifyItem items n item lock v).1
            (if (classifyItem items n item lock v).2.2 = 3 then []
              else serial lock visits (n + 1) (classifyItem items n item lock v).1) := by
          split
          · exact .nil _
          · exact ih (n + 1) hclosed
        have hwindow : AttemptsOnce start items
            (([((prepare items n item lock v.prepare).2, v)].flatMap fun x =>
              (moveDecision x.1 x.2.move).2) ++ _) :=
          AttemptsOnce.window hrest (fun x hx => List.mem_singleton.mp hx ▸ hbegun)
            (fun f => by rw [countP_cons_toNat]; exact hattempt f)
            (fun f => by rw [countP_cons_toNat]; exact hback f)
        simpa [classifyItem] using hwindow

theorem parallel_once (hvalid : FirstsValid start) (lock : Stat) (rounds : List Round) (n : ℕ)
    {items : List Selected} (h : SameItems start items) :
    AttemptsOnce start items (parallel lock rounds n items) := by
  induction rounds generalizing n items with
  | nil => exact .nil items
  | cons r rounds ih =>
    obtain ⟨hfilled, hbegun, hattempt⟩ := fillWindow_spec hvalid lock r.visits n 0 h
    obtain ⟨w, hw⟩ : ∃ w, w = fillWindow lock r.visits n 0 items := ⟨_, rfl⟩
    rw [← hw] at hfilled hbegun hattempt
    obtain ⟨hclosed, hback⟩ := closeWindow_spec hvalid
      (w.2.map fun x => ((moveDecision x.1 x.2.move).1, x.2)) hfilled
    have hback' : ∀ f, (attemptedAt w.1 f).toNat ≤ (attemptedAt (closeWindow w.1
        (w.2.map fun x => ((moveDecision x.1 x.2.move).1, x.2))).1 f).toNat +
          w.2.countP fun x => givesBack start f (moveDecision x.1 x.2.move).1 := fun f => by
      have hf := hback f
      rwa [List.countP_map] at hf
    rw [parallel]
    simp only [← hw, List.map_map, List.flatMap_map, Function.comp_def]
    refine AttemptsOnce.window ?_ hbegun hattempt hback'
    split
    · exact .nil _
    · exact ih _ hclosed

end Attempts

/-! ### The snapshot -/

instance : Std.TransCmp compareIdentities := by
  unfold compareIdentities
  infer_instance

def inodeLe (a b : Stat) : Prop := a.dev < b.dev ∨ a.dev = b.dev ∧ a.ino ≤ b.ino

theorem inodeLe_of_compare {a b : ℕ × Stat} (h : (compareIdentities a b).isLE = true) : inodeLe a.2 b.2 := by
  simp only [compareIdentities, compareLex, compareOn] at h
  obtain hlt | heq | hgt := Nat.lt_trichotomy a.2.dev b.2.dev
  · exact .inl hlt
  · rw [heq, Nat.compare_eq_eq.mpr rfl, Ordering.eq_then] at h
    refine .inr ⟨heq, Nat.le_of_not_lt fun hgt => ?_⟩
    rw [Nat.compare_eq_gt.mpr hgt, Ordering.gt_then] at h
    cases h
  · rw [Nat.compare_eq_gt.mpr hgt, Ordering.gt_then] at h
    cases h

/-- The inode of a status. -/
def Stat.inode (st : Stat) : ℕ × ℕ := (st.dev, st.ino)

theorem linkFirsts_keys (l : List (ℕ × Stat)) (previous : Option (Stat × ℕ)) :
    (linkFirsts l previous).map Prod.fst = l.map Prod.fst := by
  induction l generalizing previous with
  | nil => rfl
  | cons x l ih => rw [linkFirsts, List.map_cons, List.map_cons, ih]

theorem firstBehind_mem (previous : Option (Stat × ℕ)) (x : ℕ × Stat) :
    firstBehind previous x = x.1 ∨ ∃ p, previous = some (p, firstBehind previous x) := by
  unfold firstBehind
  split
  · split
    · exact .inr ⟨_, rfl⟩
    · exact .inl rfl
  · exact .inl rfl

theorem linkFirsts_mem {l : List (ℕ × Stat)} {previous : Option (Stat × ℕ)} {x : ℕ × ℕ}
    (h : x ∈ linkFirsts l previous) : x.2 ∈ l.map Prod.fst ∨ ∃ p, previous = some (p, x.2) := by
  induction l generalizing previous with
  | nil => cases h
  | cons y l ih =>
    have hhead : firstBehind previous y ∈ (y :: l).map Prod.fst ∨
        ∃ p, previous = some (p, firstBehind previous y) :=
      (firstBehind_mem previous y).imp_left fun he => by rw [he]; simp
    rw [linkFirsts] at h
    obtain rfl | h := List.mem_cons.mp h
    · exact hhead
    · obtain h | ⟨p, hp⟩ := ih h
      · exact .inl (List.mem_cons_of_mem _ h)
      · rw [← (Prod.mk.inj (Option.some.inj hp)).2]
        exact hhead

/-- In a sorted list the items of one inode take one first. -/
theorem linkFirsts_same {l : List (ℕ × Stat)} {previous : Option (Stat × ℕ)}
    (hs : l.Pairwise fun a b => inodeLe a.2 b.2) (hd : (l.map Prod.fst).Nodup)
    (hp : ∀ p f, previous = some (p, f) → ∀ x ∈ l, inodeLe p x.2) :
    (∀ i f j g st st', (i, f) ∈ linkFirsts l previous → (j, g) ∈ linkFirsts l previous → (i, st) ∈ l →
      (j, st') ∈ l → st.inode = st'.inode → f = g) ∧
    ∀ p h i f st, previous = some (p, h) → (i, f) ∈ linkFirsts l previous → (i, st) ∈ l →
      st.inode = p.inode → f = h := by
  induction l generalizing previous with
  | nil => exact ⟨fun _ _ _ _ _ _ hx => (by cases hx), fun _ _ _ _ _ _ hx => (by cases hx)⟩
  | cons y l ih =>
    obtain ⟨k, sk⟩ := y
    obtain ⟨hhead, htail⟩ := List.pairwise_cons.mp hs
    rw [List.map_cons, List.nodup_cons] at hd
    obtain ⟨c, hc⟩ : ∃ c, c = firstBehind previous (k, sk) := ⟨_, rfl⟩
    have hlinks : linkFirsts ((k, sk) :: l) previous = (k, c) :: linkFirsts l (some (sk, c)) := by
      rw [linkFirsts, ← hc]
    have hnear : ∀ p f, some (sk, c) = some (p, f) → ∀ x ∈ l, inodeLe p x.2 := by
      intro p f heq x hx
      cases heq
      exact hhead x hx
    obtain ⟨hsame, hprev⟩ := ih htail hd.2 hnear
    -- An index of the tail is not the head's.
    have hfresh : ∀ {i f}, (i, f) ∈ linkFirsts l (some (sk, c)) → i ≠ k := fun hm he => by
      have hkey := List.mem_map_of_mem (f := Prod.fst) hm
      rw [linkFirsts_keys] at hkey
      exact hd.1 (he ▸ hkey)
    have hfresh' : ∀ {i st}, (i, st) ∈ l → i ≠ k := fun hm he => by
      have hkey := List.mem_map_of_mem (f := Prod.fst) hm
      exact hd.1 (he ▸ hkey)
    have hcase : ∀ {i f st}, (i, f) ∈ (k, c) :: linkFirsts l (some (sk, c)) → (i, st) ∈ (k, sk) :: l →
        (i = k ∧ f = c ∧ st = sk) ∨ ((i, f) ∈ linkFirsts l (some (sk, c)) ∧ (i, st) ∈ l) := by
      intro i f st hf hst
      obtain heq | hf := List.mem_cons.mp hf
      · cases heq
        obtain heq | hst := List.mem_cons.mp hst
        · cases heq
          exact .inl ⟨rfl, rfl, rfl⟩
        · exact absurd rfl (hfresh' hst)
      · obtain heq | hst := List.mem_cons.mp hst
        · cases heq
          exact absurd rfl (hfresh hf)
        · exact .inr ⟨hf, hst⟩
    rw [hlinks]
    refine ⟨fun i f j g st st' hi hj hst hst' he => ?_, fun p h i f st heq hi hst he => ?_⟩
    · obtain ⟨-, hf, hsk⟩ | ⟨hi, hst⟩ := hcase hi hst
      · obtain ⟨-, hg, hsk'⟩ | ⟨hj, hst'⟩ := hcase hj hst'
        · rw [hf, hg]
        · rw [hf]
          exact (hprev _ _ j g st' rfl hj hst' (hsk ▸ he.symm)).symm
      · obtain ⟨-, hg, hsk'⟩ | ⟨hj, hst'⟩ := hcase hj hst'
        · rw [hg]
          exact hprev _ _ i f st rfl hi hst (hsk' ▸ he)
        · exact hsame i f j g st st' hi hj hst hst' he
    · subst heq
      obtain ⟨hdev, hino⟩ := Prod.mk.inj he
      have hle := hp p h rfl (k, sk) (by simp)
      obtain ⟨-, hf, hsk⟩ | ⟨hi, hst⟩ := hcase hi hst
      · rw [hsk] at hdev hino
        rw [hf, hc]
        simp only [firstBehind, hdev, hino, and_self, if_true]
      · -- The head lies between an inode and itself.
        have hmid := hhead (i, st) hst
        have heq : sk.dev = p.dev ∧ sk.ino = p.ino := by
          simp only [inodeLe] at hle hmid
          omega
        have hch : c = h := by
          rw [hc]
          simp only [firstBehind, heq.1, heq.2, and_self, if_true]
        rw [← hch]
        refine hprev _ _ i f st rfl hi hst ?_
        rw [he]
        exact Prod.ext heq.1.symm heq.2.symm

theorem mem_references {items : List Selected} {x : ℕ × Stat} : x ∈ references items ↔
    ∃ item, items[x.1]? = some item ∧ item.snapshotted = true ∧ item.identity = x.2 := by
  rw [references]
  constructor
  · intro h
    obtain ⟨y, hy, rfl⟩ := List.mem_map.mp h
    obtain ⟨hmem, hsnap⟩ := List.mem_filter.mp hy
    exact ⟨y.1, List.mem_zipIdx_iff_getElem?.mp hmem, hsnap, rfl⟩
  · rintro ⟨item, hitem, hsnap, hidentity⟩
    exact List.mem_map.mpr ⟨(item, x.1), List.mem_filter.mpr ⟨List.mem_zipIdx_iff_getElem?.mpr hitem, hsnap⟩,
      Prod.ext rfl hidentity⟩

theorem references_nodup (items : List Selected) : ((references items).map Prod.fst).Nodup := by
  rw [references, List.map_map]
  have hsub : ((items.zipIdx.filter fun x => x.1.snapshotted).map Prod.snd).Sublist
      (items.zipIdx.map Prod.snd) := List.filter_sublist.map _
  refine List.Nodup.sublist hsub ?_
  rw [List.zipIdx_map_snd]
  exact List.nodup_range'

/-- What `snapshot_paths` leaves. -/
structure SnapshotTaken (items : List Selected) : Prop where
  checked : ∀ item ∈ items, item.error = none → item.snapshotted = true
  valid : FirstsValid items
  grouped : ∀ (i j : ℕ) (item item' : Selected), items[i]? = some item → items[j]? = some item' → item.snapshotted = true →
    item'.snapshotted = true → item.identity.inode = item'.identity.inode →
    ∃ f, item.first = some f ∧ item'.first = some f

theorem snapshotItem_ok {item item' : Selected} {look : SnapshotLook}
    (h : snapshotItem item look = .ok item') (hn : item.first = none) :
    (item'.error = none → item'.snapshotted = true) ∧ item'.first = none := by
  rw [snapshotItem] at h
  split at h
  · rename_i hsnap
    cases h
    exact ⟨fun _ => hsnap, hn⟩
  · split at h
    · cases h
    · split at h
      · cases h
      · cases h
        exact ⟨fun he => (by cases he), hn⟩
      · split at h
        · cases h
          exact ⟨fun he => (by cases he), hn⟩
        · split at h
          · cases h
            exact ⟨fun _ => rfl, hn⟩
          · cases h
            exact ⟨fun he => (by cases he), hn⟩

theorem snapshotItems_ok {looks : ℕ → SnapshotLook} {items items' : List Selected} {i : ℕ}
    (h : snapshotItems looks items i = .ok items') (hn : ∀ item ∈ items, item.first = none) :
    ∀ item ∈ items', (item.error = none → item.snapshotted = true) ∧ item.first = none := by
  induction items generalizing i items' with
  | nil =>
    cases h
    exact fun _ hm => absurd hm List.not_mem_nil
  | cons item items ih =>
    obtain ⟨x, hx, h⟩ := bind_eq_ok_iff.mp h
    obtain ⟨xs, hxs, h⟩ := bind_eq_ok_iff.mp h
    cases h
    intro y hy
    obtain rfl | hy := List.mem_cons.mp hy
    · exact snapshotItem_ok hx (hn item (by simp))
    · exact ih hxs (fun z hz => hn z (List.mem_cons_of_mem _ hz)) y hy

theorem setFirsts_get (items : List Selected) (i : ℕ) : (setFirsts items)[i]? =
    items[i]?.map fun item => { item with first := (givenFirst
      (linkFirsts (qsort compareIdentities (references items)) none) i).or item.first } := by
  rw [setFirsts, List.getElem?_map, List.getElem?_zipIdx, Option.map_map]
  simp only [Nat.zero_add]
  rfl

theorem setFirsts_snapshot {items : List Selected}
    (h : ∀ item ∈ items, (item.error = none → item.snapshotted = true) ∧ item.first = none) :
    SnapshotTaken (setFirsts items) := by
  obtain ⟨l, hl⟩ : ∃ l, l = qsort compareIdentities (references items) := ⟨_, rfl⟩
  have hperm : l.Perm (references items) := hl ▸ qsort_perm _ _
  have hkeys : (l.map Prod.fst).Nodup := ((hperm.map Prod.fst).nodup_iff).mpr (references_nodup items)
  have hsorted : l.Pairwise fun a b => inodeLe a.2 b.2 := by
    rw [hl]
    exact (pairwise_qsort compareIdentities _).imp inodeLe_of_compare
  have hnone : ∀ (p : Stat) (f : ℕ), none = some (p, f) → ∀ x ∈ l, inodeLe p x.2 :=
    fun _ _ hp => (by cases hp)
  have hsame := (linkFirsts_same hsorted hkeys hnone).1
  have hget := setFirsts_get items
  rw [← hl] at hget
  have hfound : ∀ {i f}, givenFirst (linkFirsts l none) i = some f → (i, f) ∈ linkFirsts l none := by
    intro i f hf
    obtain ⟨x, hx, rfl⟩ := Option.map_eq_some_iff.mp hf
    have hi := List.find?_some hx
    have hi : x.1 = i := of_decide_eq_true hi
    rw [← hi]
    exact List.mem_of_find?_eq_some hx
  refine ⟨fun item hitem he => ?_, fun i f hf => ?_, fun i j item item' hi hj hs hs' he => ?_⟩
  · obtain ⟨i, hi⟩ := List.mem_iff_getElem?.mp hitem
    rw [hget] at hi
    obtain ⟨old, hold, rfl⟩ := Option.map_eq_some_iff.mp hi
    exact (h old (List.mem_of_getElem? hold)).1 he
  · rw [firstOf, hget] at hf
    obtain ⟨item, hitem, hf⟩ := Option.bind_eq_some_iff.mp hf
    obtain ⟨old, hold, rfl⟩ := Option.map_eq_some_iff.mp hitem
    have hf : (givenFirst (linkFirsts l none) i).or old.first = some f := hf
    rw [(h old (List.mem_of_getElem? hold)).2, Option.or_none] at hf
    obtain hmem | ⟨p, hp⟩ := linkFirsts_mem (hfound hf)
    · obtain ⟨y, hy, hyf⟩ := List.mem_map.mp hmem
      obtain ⟨item, hitem, -, -⟩ := mem_references.mp (hperm.mem_iff.mp hy)
      have hlt := (List.getElem?_eq_some_iff.mp hitem).1
      have hlength : (setFirsts items).length = items.length := by simp [setFirsts]
      rw [hlength]
      rw [hyf] at hlt
      exact hlt
    · cases hp
  · -- Both items are referenced, so both have a first, and the sorted order makes them one.
    have hone : ∀ {i item}, (setFirsts items)[i]? = some item → item.snapshotted = true →
        ∃ f, item.first = some f ∧ (i, f) ∈ linkFirsts l none ∧ (i, item.identity) ∈ l := by
      intro i item hi hs
      rw [hget] at hi
      obtain ⟨old, hold, rfl⟩ := Option.map_eq_some_iff.mp hi
      have href : (i, old.identity) ∈ l := hperm.mem_iff.mpr (mem_references.mpr ⟨old, hold, hs, rfl⟩)
      have hkey : i ∈ (linkFirsts l none).map Prod.fst := by
        rw [linkFirsts_keys]
        exact List.mem_map_of_mem (f := Prod.fst) href
      obtain ⟨x, hx, hxi⟩ := List.mem_map.mp hkey
      obtain ⟨y, hy⟩ : ∃ y, (linkFirsts l none).find? (fun x => x.1 = i) = some y :=
        Option.isSome_iff_exists.mp (List.find?_isSome.mpr ⟨x, hx, by simpa using hxi⟩)
      have hgiven : givenFirst (linkFirsts l none) i = some y.2 := by rw [givenFirst, hy]; rfl
      refine ⟨y.2, ?_, hfound hgiven, href⟩
      show (givenFirst (linkFirsts l none) i).or old.first = _
      rw [hgiven, Option.some_or]
    obtain ⟨f, hf, hlink, href⟩ := hone hi hs
    obtain ⟨g, hg, hlink', href'⟩ := hone hj hs'
    have hfg := hsame i f j g _ _ hlink hlink' href href' he
    exact ⟨f, hf, hfg ▸ hg⟩

theorem snapshotPaths_ok {items items' : List Selected} {looks : ℕ → SnapshotLook} {room : Bool}
    (hn : ∀ item ∈ items, item.first = none) (h : snapshotPaths items looks room = .ok items') :
    SnapshotTaken items' := by
  rw [snapshotPaths] at h
  split at h
  · cases h
  · rename_i taken htaken
    split at h
    · cases h
      exact setFirsts_snapshot (snapshotItems_ok htaken hn)
    · cases h

theorem SameItems.refl (items : List Selected) : SameItems items items := ⟨rfl, fun _ => rfl⟩

theorem applyBatch_once {items : List Selected} (h : SnapshotTaken items) (lock : Stat) (course : Course) :
    AttemptsOnce items items (applyBatch items lock course) := by
  cases course with
  | alone visits => exact serial_once h.valid lock visits 0 (.refl items)
  | pooled rounds => exact parallel_once h.valid lock rounds 0 (.refl items)

/-- What `select_path` has been called for, sorted or not. -/
inductive Chosen : Selection → Prop
  | start : Chosen {}
  | select {s s' : Selection} {path : Bytes} {identity : Option Stat} (h : Chosen s) (hpath : 0 ∉ path)
    (hs : selectPath s path identity = .ok s') : Chosen s'
  | sort {s : Selection} {items : List Selected} (h : Chosen s) (hperm : items.Perm s.items) :
    Chosen { s with items }

/-- Every selection begins without firsts. -/
theorem selectPath_first {s s' : Selection} {path : Bytes} {identity : Option Stat}
    (h : ∀ item ∈ s.items, item.first = none) (hs : selectPath s path identity = .ok s') :
    ∀ item ∈ s'.items, item.first = none := by
  unfold selectPath at hs
  split at hs
  · cases hs
  · cases hs
    intro item hitem
    obtain hitem | hitem := List.mem_append.mp hitem
    · exact h item hitem
    · obtain rfl := List.mem_singleton.mp hitem
      cases identity <;> rfl

theorem Chosen.first {s : Selection} (h : Chosen s) : ∀ item ∈ s.items, item.first = none := by
  induction h with
  | start => exact fun _ h => absurd h List.not_mem_nil
  | select _ _ hs ih => exact selectPath_first ih hs
  | sort _ hperm ih => exact fun item hitem => ih item (hperm.mem_iff.mp hitem)

/-- Whatever the calls on the mail return: each call of `jf_storage_move` expects
the identity that was snapshotted for its occurrence, which the open file still
had when it was last looked at, and of the calls for one snapshotted inode at most
one does not report a no-op. -/
theorem batch_attempts_once {s : Selection} (hchosen : Chosen s) {items' : List Selected}
    {looks : ℕ → SnapshotLook} {room : Bool} (hs : snapshotPaths s.items looks room = .ok items')
    (lock : Stat) (course : Course) :
    (∀ c ∈ applyBatch items' lock course, ∃ item, items'[c.item]? = some item ∧ item.snapshotted = true ∧
      storageSame item.identity c.expected = true ∧ storageSame item.identity c.held = true) ∧
    ∀ inode, (applyBatch items' lock course).countP (fun c => c.result ≠ 1 ∧
      (items'[c.item]?.map fun item => item.identity.inode) = some inode) ≤ 1 := by
  have htaken := snapshotPaths_ok hchosen.first hs
  have honce := applyBatch_once htaken lock course
  obtain ⟨calls, hcalls⟩ : ∃ calls, calls = applyBatch items' lock course := ⟨_, rfl⟩
  rw [← hcalls] at honce ⊢
  have hexpected : ∀ c ∈ calls, ∃ item, items'[c.item]? = some item ∧ item.snapshotted = true ∧
      storageSame item.identity c.expected = true ∧ storageSame item.identity c.held = true := fun c hc => by
    obtain ⟨item, hitem, herror, hsame⟩ := honce.expected c hc
    have hsnap := htaken.checked item (List.mem_of_getElem? hitem) herror
    exact ⟨item, hitem, hsnap, hsame hsnap⟩
  refine ⟨hexpected, fun inode => ?_⟩
  obtain hzero | hpos := Nat.eq_zero_or_pos (calls.countP fun c => c.result ≠ 1 ∧
      (items'[c.item]?.map fun item => item.identity.inode) = some inode)
  · omega
  · -- The firsts of all calls on this inode are the first of one of them.
    obtain ⟨c, hc, hcall⟩ := List.countP_pos_iff.mp hpos
    obtain ⟨item, hitem, hsnap, -⟩ := hexpected c hc
    have hinode : item.identity.inode = inode := by
      have hp := (of_decide_eq_true hcall).2
      rw [hitem] at hp
      exact Option.some.inj hp
    obtain ⟨f, hf, -⟩ := htaken.grouped c.item c.item item item hitem hitem hsnap hsnap rfl
    refine Nat.le_trans (List.countP_mono_left fun c' hc' hcall' => ?_)
      (Nat.le_trans (Nat.le_add_right _ _) (honce.once f))
    obtain ⟨item', hitem', hsnap', -⟩ := hexpected c' hc'
    obtain ⟨hresult, hp⟩ := of_decide_eq_true hcall'
    rw [hitem'] at hp
    have hsame : item.identity.inode = item'.identity.inode := hinode.trans (Option.some.inj hp).symm
    obtain ⟨g, hg, hg'⟩ := htaken.grouped c.item c'.item item item' hitem hitem' hsnap hsnap' hsame
    have hfg : g = f := Option.some.inj (hg.symm.trans hf)
    simp only [acts, firstOf, hitem', Option.bind_some, hg', hfg, decide_eq_true_eq]
    exact ⟨hresult, trivial⟩

/-! ### A batch on one inode -/

def sampleStat : Stat := { dev := 1, ino := 5, size := 3, regular := true }

def sampleItems : List Selected := [{ path := cstr "a" }, { path := cstr "b" }, { path := cstr "a" }]

/-- Every call succeeds, and the move returns `result`. -/
def sampleVisit (result : ℕ) : Visit where
  interrupted := false
  prepare :=
    { source := true, parent := .opened, before := some sampleStat, opened := true, status := some sampleStat,
      headers := .ok ⟨⟨[], [], []⟩, 0, []⟩, after := some sampleStat, current := some sampleStat,
      verdict := fun _ => .ok ⟨.always, 9, 0, [], [], [], [], [], [], [], [], 0, 0, []⟩, joined := true }
  parentKept := true
  move := ⟨false, result, []⟩
  closed := true
  written := true

/-- The items behind their snapshot. -/
def sampleTaken : List Selected :=
  setFirsts (sampleItems.map fun item => { item with identity := sampleStat, snapshotted := true })

theorem chosen_sampleItems : Chosen ⟨sampleItems, 6⟩ := by
  have h1 : Chosen ⟨[{ path := cstr "a" }], 2⟩ :=
    @Chosen.select {} _ (cstr "a") none .start (by decide) (by decide)
  have h2 : Chosen ⟨[{ path := cstr "a" }, { path := cstr "b" }], 4⟩ :=
    @Chosen.select _ _ (cstr "b") none h1 (by decide) (by decide)
  exact @Chosen.select _ _ (cstr "a") none h2 (by decide) (by decide)

/-- The first occurrence is a no-op, the second moves, the third is refused. -/
theorem batch_attempts_once_sample :
    applyBatch sampleTaken {} (.alone [sampleVisit 1, sampleVisit 0, sampleVisit 0]) =
      [⟨0, sampleStat, sampleStat, 1⟩, ⟨1, sampleStat, sampleStat, 0⟩] ∧
    ∀ inode, (applyBatch sampleTaken {} (.alone [sampleVisit 1, sampleVisit 0, sampleVisit 0])).countP
      (fun c => c.result ≠ 1 ∧ (sampleTaken[c.item]?.map fun item => item.identity.inode) = some inode) ≤ 1 := by
  have hitems : snapshotPaths sampleItems (fun _ => ⟨true, .opened, some sampleStat⟩) true =
      .ok sampleTaken := rfl
  exact ⟨by decide, (batch_attempts_once chosen_sampleItems hitems {} _).2⟩

end JaroFilter
