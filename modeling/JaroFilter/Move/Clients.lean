import JaroFilter.Lib.Threads
import JaroFilter.Move.Copy
import JaroFilter.Move.Storage

/-!
# Moves beside other mail clients (`storage.c:323-505`, `README.md:186-205`)

Any number of moves run beside each other and beside other Maildir clients, which
create, rename, replace and delete entries as they like but leave the bytes of a
message and the private directories alone. A call that succeeds found what it
needs at that moment; any call may fail, and a move that is killed makes no
further call. A file is told by its inode, and `bytes` is what it holds.
-/

namespace JaroFilter

open Lib

variable {Dir : Type} [DecidableEq Dir] (bytes : ℕ → Bytes)

/-- The entries of the directories that all clients use. -/
structure Mail (Dir : Type) where
  entry : Dir → Bytes → Option ℕ

def Mail.set (w : Mail Dir) (dir : Dir) (name : Bytes) (file : Option ℕ) : Mail Dir where
  entry d n := if d = dir ∧ n = name then file else w.entry d n

/-- The message has a name that every client can see. -/
def Public (w : Mail Dir) (message : Bytes) : Prop := ∃ d n j, w.entry d n = some j ∧ bytes j = message

/-- The arguments of one move; `source` is the inode behind the open descriptor. -/
structure MoveArgs (Dir : Type) where
  input : MoveInput
  sequence : ℕ
  parent : Dir
  cur : Dir
  source : ℕ
  headerSize : ℕ
  headerDigest : Bytes

/-- What a move has of its own: the number of its directories, the bytes of its
staged file, the file it linked with its name, and the entry of its claim. Beside
them stands what has been of the claimed entry: `covered` when a copy was seen at
a public name or the entry was linked back since, `back` when it got its name
again. -/
structure Hands where
  owned : ℕ := 0
  staged : Option Bytes := none
  linked : Option (Bytes × ℕ) := none
  claim : Option (Bytes × ℕ) := none
  taken : Option ℕ := none
  covered : Bool := false
  back : Bool := false

/-- Checks whose success neither changes the hands nor is relied upon. -/
def MoveCheck.plain : MoveCheck → Bool
  | .copied | .statClaimed | .statPublished | .makeDirectory | .removeDirectory => false
  | _ => true

/-- The run of `copy_message` on the pinned source. -/
def MoveArgs.copy (c : MoveArgs Dir) (e : CopyCalls) (fuel : ℕ) : CopyResult :=
  copyMessage e fuel (bytes c.source) (bytes c.source).length c.headerSize c.headerDigest

/-- What a call may answer, and what it then did to the hands and to the mail. -/
inductive MoveAct (c : MoveArgs Dir) : MoveSys → Hands × Mail Dir → Bool → Hands × Mail Dir → Prop
  | fails {s : MoveSys} {x : Hands} {w : Mail Dir} : s ≠ .check .copied → MoveAct c s (x, w) false (x, w)
  | passes {k : MoveCheck} {x : Hands} {w : Mail Dir} : k.plain = true → MoveAct c (.check k) (x, w) true (x, w)
  | copies {x : Hands} {w : Mail Dir} (e : CopyCalls) (fuel : ℕ) :
      MoveAct c (.check .copied) (x, w) (decide ((c.copy bytes e fuel).ends = .done))
        ({ x with staged := some (c.copy bytes e fuel).stage }, w)
  | makes {x : Hands} {w : Mail Dir} :
      MoveAct c (.check .makeDirectory) (x, w) true ({ x with owned := x.owned + 1 }, w)
  | removes {x : Hands} {w : Mail Dir} :
      MoveAct c (.check .removeDirectory) (x, w) true ({ x with owned := x.owned - 1 }, w)
  /-- The claimed entry has the inode of the source. -/
  | claimed {x : Hands} {w : Mail Dir} {d : Bytes} : x.claim = some (d, c.source) →
      MoveAct c (.check .statClaimed) (x, w) true (x, w)
  /-- The published name still stands for the staged file. -/
  | published {x : Hands} {w : Mail Dir} {n : Bytes} {j : ℕ} : x.linked = some (n, j) →
      w.entry c.cur n = some j → MoveAct c (.check .statPublished) (x, w) true ({ x with covered := true }, w)
  | creates {x : Hands} {w : Mail Dir} {d : Bytes} :
      MoveAct c (.createMessage d) (x, w) true ({ x with staged := some [] }, w)
  | links {x : Hands} {w : Mail Dir} {n : Bytes} {j : ℕ} : x.staged = some (bytes j) → w.entry c.cur n = none →
      MoveAct c (.linkMessage n) (x, w) true ({ x with linked := some (n, j) }, w.set c.cur n (some j))
  | unlinks {x : Hands} {w : Mail Dir} : MoveAct c .unlinkMessage (x, w) true ({ x with staged := none }, w)
  /-- The rename takes whatever stands at the name by now. -/
  | claims {x : Hands} {w : Mail Dir} {d : Bytes} {j : ℕ} : w.entry c.parent c.input.name = some j →
      MoveAct c (.claimSource d) (x, w) true
        ({ x with claim := some (d, j), taken := some j, covered := false },
          w.set c.parent c.input.name none)
  | renamesBack {x : Hands} {w : Mail Dir} {d : Bytes} {j : ℕ} : x.claim = some (d, j) →
      w.entry c.parent c.input.name = none →
      MoveAct c .restoreRename (x, w) true
        ({ x with claim := none, back := true }, w.set c.parent c.input.name (some j))
  | linksBack {x : Hands} {w : Mail Dir} {d : Bytes} {j : ℕ} : x.claim = some (d, j) →
      w.entry c.parent c.input.name = none →
      MoveAct c .restoreLink (x, w) true
        ({ x with covered := true, back := true }, w.set c.parent c.input.name (some j))
  | drops {x : Hands} {w : Mail Dir} : MoveAct c .unlinkClaimed (x, w) true ({ x with claim := none }, w)

/-- What a move knows of its hands alone. -/
def MoveOwn (c : MoveArgs Dir) (s : MoveSys) (x : Hands) (ok : Bool) (y : Hands) : Prop :=
  ∃ w w', MoveAct bytes c s (x, w) ok (y, w')

/-- The source has the header that was classified. -/
def Classified (c : MoveArgs Dir) : Prop :=
  sha256Hex (sha256Update sha256Init ((bytes c.source).take c.headerSize)) = c.headerDigest

/-- An equal copy of the source as it was classified. -/
def CopyOf (c : MoveArgs Dir) (j : ℕ) : Prop := bytes j = bytes c.source ∧ Classified bytes c

/-- Such a copy was linked into the destination by this move. -/
def Duplicated (c : MoveArgs Dir) (x : Hands) : Prop := ∃ n j, x.linked = some (n, j) ∧ CopyOf bytes c j

/-- The claimed entry may go: it is the source and a copy of it was published, or
it was put back at its name. -/
def Expendable (c : MoveArgs Dir) (x : Hands) : Prop :=
  x.back = true ∨ (∃ d, x.claim = some (d, c.source)) ∧ Duplicated bytes c x

/-- Where the calls are made that take something away. -/
def MoveBound (c : MoveArgs Dir) : MoveSys → Hands → Prop
  | .claimSource _, x => x.claim = none
  | .check .statPublished, x => x.claim ≠ none → (∃ d, x.claim = some (d, c.source)) ∧ Duplicated bytes c x
  | .unlinkClaimed, x => x.covered = true ∧ Expendable bytes c x
  | _, _ => True

/-! ### The message survives -/

/-- The message is public, or held by a move that has not seen a copy yet. -/
def Survives {ι : Type} (message : Bytes) (w : Mail Dir) (xs : ι → Hands) : Prop :=
  Public bytes w message ∨
    ∃ i d j, (xs i).claim = some (d, j) ∧ bytes j = message ∧ (xs i).covered = false

variable {bytes}

theorem public_set {w : Mail Dir} {message : Bytes} {dir : Dir} {name : Bytes} (file : Option ℕ)
    (hnone : w.entry dir name = none) (h : Public bytes w message) : Public bytes (w.set dir name file) message := by
  obtain ⟨d, n, j, hj, hb⟩ := h
  refine ⟨d, n, j, ?_, hb⟩
  have hne : ¬ (d = dir ∧ n = name) := by
    rintro ⟨rfl, rfl⟩
    rw [hnone] at hj
    cases hj
  simp only [Mail.set, if_neg hne]
  exact hj

theorem public_set_some (w : Mail Dir) (dir : Dir) (name : Bytes) (j : ℕ) :
    Public bytes (w.set dir name (some j)) (bytes j) :=
  ⟨dir, name, j, by simp only [Mail.set, and_self, if_true], rfl⟩

section Act

variable {ι : Type} [DecidableEq ι] {c : MoveArgs Dir} {s : MoveSys} {w w' : Mail Dir} {ok : Bool} {y : Hands}
  {message : Bytes}

omit [DecidableEq Dir] in
theorem Survives.hands {xs : ι → Hands} {i : ι} (h : Survives bytes message w xs)
    (hclaim : y.claim = (xs i).claim) (hcovered : y.covered = (xs i).covered) :
    Survives bytes message w (Function.update xs i y) := by
  obtain h | ⟨k, d, j, hk, hb, hc⟩ := h
  · exact .inl h
  · refine .inr ⟨k, d, j, ?_, hb, ?_⟩
    · by_cases hki : k = i
      · subst hki
        rw [Function.update_self, hclaim, hk]
      · rw [Function.update_of_ne hki, hk]
    · by_cases hki : k = i
      · subst hki
        rw [Function.update_self, hcovered, hc]
      · rw [Function.update_of_ne hki, hc]

omit [DecidableEq Dir] in
/-- What the others hold, they still hold. -/
theorem Survives.elsewhere {xs : ι → Hands} {i k : ι} {d : Bytes} {j : ℕ} (hki : k ≠ i)
    (hk : (xs k).claim = some (d, j)) (hb : bytes j = message) (hc : (xs k).covered = false) :
    Survives bytes message w (Function.update xs i y) :=
  .inr ⟨k, d, j, by rw [Function.update_of_ne hki, hk], hb, by rw [Function.update_of_ne hki, hc]⟩

/-- A move that keeps its bounds loses no message. -/
theorem Survives.act {xs : ι → Hands} {i : ι} (hG : MoveBound bytes c s (xs i))
    (ha : MoveAct bytes c s (xs i, w) ok (y, w')) (h : Survives bytes message w xs) :
    Survives bytes message w' (Function.update xs i y) := by
  cases ha with
  | fails => exact h.hands rfl rfl
  | passes => exact h.hands rfl rfl
  | copies => exact h.hands rfl rfl
  | makes => exact h.hands rfl rfl
  | removes => exact h.hands rfl rfl
  | claimed => exact h.hands rfl rfl
  | creates => exact h.hands rfl rfl
  | unlinks => exact h.hands rfl rfl
  | @published _ _ n l hl hcur =>
    obtain h | ⟨k, d, j, hk, hb, hc⟩ := h
    · exact .inl h
    by_cases hki : k = i
    · -- The claim is the source, and the copy is where it was linked.
      subst hki
      obtain ⟨⟨d', hd'⟩, n', l', hl', hcopy⟩ := hG (by rw [hk]; exact Option.some_ne_none _)
      rw [hk] at hd'
      rw [hl] at hl'
      cases hd'
      cases hl'
      exact .inl ⟨c.cur, n, l, hcur, hcopy.1.trans hb⟩
    · exact .elsewhere hki hk hb hc
  | links _ hnone =>
    obtain h | h := h
    · exact .inl (public_set _ hnone h)
    · exact Survives.hands (.inr h) rfl rfl
  | @claims _ _ d j hj =>
    obtain ⟨d', n, j', hj', hb⟩ | ⟨k, d', j', hk, hb, hc⟩ := h
    · by_cases hentry : d' = c.parent ∧ n = c.input.name
      · obtain ⟨rfl, rfl⟩ := hentry
        rw [hj] at hj'
        cases hj'
        exact .inr ⟨i, d, j, by rw [Function.update_self], hb, by rw [Function.update_self]⟩
      · refine .inl ⟨d', n, j', ?_, hb⟩
        simp only [Mail.set, if_neg hentry]
        exact hj'
    · by_cases hki : k = i
      · subst hki
        have hnone : (xs k).claim = none := hG
        rw [hnone] at hk
        cases hk
      · exact .elsewhere hki hk hb hc
  | @renamesBack _ _ d j hclaim hnone =>
    obtain h | ⟨k, d', j', hk, hb, hc⟩ := h
    · exact .inl (public_set _ hnone h)
    by_cases hki : k = i
    · subst hki
      rw [hclaim] at hk
      cases hk
      exact .inl (hb ▸ public_set_some w _ _ j)
    · exact .elsewhere hki hk hb hc
  | @linksBack _ _ d j hclaim hnone =>
    obtain h | ⟨k, d', j', hk, hb, hc⟩ := h
    · exact .inl (public_set _ hnone h)
    by_cases hki : k = i
    · subst hki
      rw [hclaim] at hk
      cases hk
      exact .inl (hb ▸ public_set_some w _ _ j)
    · exact .elsewhere hki hk hb hc
  | drops =>
    obtain h | ⟨k, d', j', hk, hb, hc⟩ := h
    · exact .inl h
    by_cases hki : k = i
    · subst hki
      have hcovered : (xs k).covered = true := hG.1
      rw [hcovered] at hc
      cases hc
    · exact .elsewhere hki hk hb hc

end Act

/-! ### One move by itself -/

section Alone

variable {α β : Type} {c : MoveArgs Dir}

/-- What a move does within its bounds, and what it ends with. -/
abbrev Keeps (bytes : ℕ → Bytes) (c : MoveArgs Dir) (p : MoveProg α) (x : Hands) (Q : α → Hands → Prop) : Prop :=
  Prog.Holds (MoveOwn bytes c) (MoveBound bytes c) p x Q

theorem keeps_ask {k : MoveCheck} (hk : k.plain = true) {x : Hands} {Q : Bool → Hands → Prop}
    (hQ : ∀ ok, Q ok x) : Keeps bytes c (ask k) x Q := by
  refine Prog.holds_make ?_ fun ok y hy => ?_
  · cases k <;> trivial
  · obtain ⟨w, w', ha⟩ := hy
    cases ha <;> first | exact hQ _ | cases hk

theorem keeps_both_ask {k k' : MoveCheck} (hk : k.plain = true) (hk' : k'.plain = true) {x : Hands}
    {Q : Bool → Hands → Prop} (hQ : ∀ ok, Q ok x) : Keeps bytes c (.both (ask k) (ask k')) x Q := by
  refine Prog.holds_both (keeps_ask hk fun ok => ?_)
  cases ok
  · exact hQ false
  · exact keeps_ask hk' hQ

/-- A directory is counted once it is made. -/
theorem keeps_createOwned (nonce : Nonce) (n : ℕ) (name : Bytes) (sequence : ℕ) (x : Hands) :
    Keeps bytes c (createOwned nonce n name sequence) x fun r y =>
      y = { x with owned := x.owned + r.2.1.created.toNat } ∧ (r.1 = true → r.2.1.created = true) := by
  induction n generalizing name sequence with
  | zero => exact ⟨rfl, fun h => by cases h⟩
  | succ n ih =>
    rw [createOwned]
    split
    · exact ⟨rfl, fun h => by cases h⟩
    refine Prog.holds_bind (Prog.holds_make trivial fun made y hy => ?_)
    obtain ⟨w, w', ha⟩ := hy
    cases ha with
    | fails =>
      refine Prog.holds_bind (keeps_ask rfl fun again => ?_)
      cases again
      · exact ⟨rfl, fun h => by cases h⟩
      · exact ih _ _
    | passes hk => cases hk
    | makes =>
      refine Prog.holds_bind (Prog.holds_both (keeps_ask rfl fun ok => ?_))
      cases ok
      · exact ⟨rfl, fun _ => rfl⟩
      · exact keeps_both_ask rfl rfl fun ok => ⟨rfl, fun _ => rfl⟩

theorem keeps_removeOwned (d : Owned) {n : ℕ} {x : Hands} (hn : x.owned = n + d.created.toNat) :
    Keeps bytes c (removeOwned d) x fun r y =>
      y = { x with owned := n + r.2.created.toNat } ∧ (r.1 = true → r.2.created = false) ∧
        (d.created = false → r = (true, d)) := by
  rw [removeOwned]
  split
  · rename_i hd
    refine ⟨?_, fun _ => hd, fun _ => rfl⟩
    rw [← hn]
  · rename_i hd
    have hcreated : d.created = true := by simpa using hd
    have hsame : x = { x with owned := n + d.created.toNat } := by rw [← hn]
    refine Prog.holds_bind (Prog.holds_both (keeps_ask rfl fun ok => ?_))
    cases ok
    · exact ⟨hsame, fun h => (by cases h), fun h => (hd h).elim⟩
    refine Prog.holds_make trivial fun removed y hy => ?_
    obtain ⟨w, w', ha⟩ := hy
    cases ha with
    | fails => exact ⟨hsame, fun h => (by cases h), fun h => (hd h).elim⟩
    | passes hk => cases hk
    | removes =>
      refine Prog.holds_bind (keeps_ask rfl fun ok => ⟨?_, fun _ => rfl, fun h => (hd h).elim⟩)
      rw [hn, hcreated]
      rfl

/-- The locals of a move and its hands between two calls. -/
structure HandsOk (bytes : ℕ → Bytes) (c : MoveArgs Dir) (m : Move) (x : Hands) : Prop where
  owned : x.owned = m.stage.created.toNat + m.claim.created.toNat
  staged : m.stageMessage = false → x.staged = none
  linked : m.published = true → ∃ n j, x.linked = some (n, j) ∧ CopyOf bytes c j ∧
    m.finalPath = some (destinationPath c.input (cstr "cur") n)
  claim : if m.claimedMessage then ∃ j, x.claim = some (m.claim.name, j) ∧ x.taken = some j else x.claim = none
  claimPath : m.claimedMessage = true → m.claim.created = true ∧
    m.claimPath = some (recoveryPath c.input m.claim.name)
  taken : m.claimedMessage = false → ∀ j, x.taken = some j → j = c.source ∧ m.published = true
  back : x.back = false
  rc : m.rc = 0 → m.published = true ∧ m.claimedMessage = false ∧ m.stageMessage = false ∧
    m.stage.created = false ∧ m.claim.created = false ∧ x.taken = some c.source

omit [DecidableEq Dir] in
theorem HandsOk.detailed {m : Move} {x : Hands} (h : HandsOk bytes c m x) (detail : String) :
    HandsOk bytes c (m.detailed detail) x :=
  ⟨h.owned, h.staged, h.linked, h.claim, h.claimPath, h.taken, h.back, h.rc⟩

/-- The locals in the exit block, behind the claim. -/
structure HandsLeft (bytes : ℕ → Bytes) (c : MoveArgs Dir) (m : Move) (r : Recovery) (x : Hands) : Prop where
  owned : x.owned = m.stage.created.toNat + m.claim.created.toNat
  staged : m.stageMessage = false → x.staged = none
  linked : m.published = true → ∃ n j, x.linked = some (n, j) ∧ CopyOf bytes c j ∧
    m.finalPath = some (destinationPath c.input (cstr "cur") n)
  claim : if m.claimedMessage then
      (∃ j, x.claim = some (m.claim.name, j) ∧ x.taken = some j) ∧ m.claimPath = none ∧
        r.source = some (recoveryPath c.input m.claim.name)
    else x.claim = none
  taken : m.claimedMessage = false → x.back = true ∨ ∀ j, x.taken = some j → j = c.source ∧ m.published = true
  rc : m.rc = 0 → m.published = true ∧ m.claimedMessage = false ∧ m.stageMessage = false ∧
    m.stage.created = false ∧ m.claim.created = false ∧ x.taken = some c.source ∧ x.back = false

/-- What a move leaves, and what it says of it. -/
structure MoveEnded (bytes : ℕ → Bytes) (c : MoveArgs Dir) (r : MoveResult) (x : Hands) : Prop where
  held : ∀ d j, x.claim = some (d, j) → r.recovery.source = some (recoveryPath c.input d)
  taken : ∀ j, x.taken = some j →
    x.back = true ∨ (∃ d, x.claim = some (d, j)) ∨ j = c.source ∧ Duplicated bytes c x
  moved : r.rc = 0 → x.taken = some c.source ∧ x.back = false ∧ x.claim = none ∧ x.staged = none ∧ x.owned = 0 ∧
    ∃ n j, x.linked = some (n, j) ∧ CopyOf bytes c j ∧
      r.recovery.published = some (destinationPath c.input (cstr "cur") n)

/-! ### The exit block -/

theorem keeps_finishClose {isOpen : Bool} {m : Move} {x : Hands} (h : HandsOk bytes c m x) :
    Keeps bytes c (finishClose isOpen m) x (HandsOk bytes c) := by
  rw [finishClose]
  split
  · exact h
  · refine Prog.holds_bind (keeps_ask rfl fun ok => ?_)
    show HandsOk bytes c (if _ then _ else _) x
    split
    · exact ⟨h.owned, h.staged, h.linked, h.claim, h.claimPath, h.taken, h.back, fun hrc => by cases hrc⟩
    · exact h

/-- What `restore` leaves of a claimed entry. -/
theorem keeps_restore {d : Bytes} {j : ℕ} {x : Hands} (hx : x.claim = some (d, j)) :
    Keeps bytes c restore x fun ok y =>
      (y.owned = x.owned ∧ y.staged = x.staged ∧ y.linked = x.linked ∧ y.taken = x.taken) ∧
        if ok then y.claim = none ∧ y.back = true else y.claim = some (d, j) := by
  rw [restore]
  refine Prog.holds_bind (Prog.holds_make trivial fun ok y hy => ?_)
  obtain ⟨w, w', ha⟩ := hy
  cases ha with
  | renamesBack => exact ⟨⟨rfl, rfl, rfl, rfl⟩, rfl, rfl⟩
  | fails =>
    refine Prog.holds_bind (keeps_ask rfl fun unsupported => ?_)
    cases unsupported
    · exact ⟨⟨rfl, rfl, rfl, rfl⟩, hx⟩
    refine Prog.holds_both (Prog.holds_make trivial fun ok y hy => ?_)
    obtain ⟨w, w', ha⟩ := hy
    cases ha with
    | fails => exact ⟨⟨rfl, rfl, rfl, rfl⟩, hx⟩
    | linksBack =>
      -- From here on the entry has its name again, and the claim may go.
      refine Prog.holds_both (keeps_ask rfl fun ok => ?_)
      cases ok
      · exact ⟨⟨rfl, rfl, rfl, rfl⟩, hx⟩
      refine Prog.holds_make ⟨rfl, .inl rfl⟩ fun ok y hy => ?_
      obtain ⟨w, w', ha⟩ := hy
      cases ha with
      | fails => exact ⟨⟨rfl, rfl, rfl, rfl⟩, hx⟩
      | drops => exact ⟨⟨rfl, rfl, rfl, rfl⟩, rfl, rfl⟩

theorem keeps_finishClaim {m : Move} {x : Hands} (h : HandsOk bytes c m x) :
    Keeps bytes c (finishClaim m {}) x fun r y => HandsLeft bytes c r.1 r.2 y := by
  rw [finishClaim]
  cases hc : m.claimedMessage with
  | false =>
    rw [if_pos rfl]
    have hclaim := h.claim
    rw [hc] at hclaim
    refine ⟨h.owned, h.staged, h.linked, ?_, fun _ => .inr (h.taken hc), fun hrc => ?_⟩
    · rw [hc]
      exact hclaim
    · obtain ⟨hp, hm, hs, hd, hd', ht⟩ := h.rc hrc
      exact ⟨hp, hm, hs, hd, hd', ht, h.back⟩
  | true =>
    rw [if_neg (by decide)]
    have hclaim := h.claim
    rw [hc] at hclaim
    obtain ⟨j, hj, ht⟩ := hclaim
    have hnot : m.rc = 0 → False := fun hrc => by
      have hm := (h.rc hrc).2.1
      rw [hc] at hm
      cases hm
    refine Prog.holds_bind (Prog.holds_mono (keeps_restore hj) fun ok y hy => ?_)
    obtain ⟨⟨howned, hstaged, hlinked, htaken⟩, hend⟩ := hy
    cases ok
    · -- The entry stays in the claim directory, whose path is handed over.
      refine Prog.holds_bind (keeps_ask rfl fun _ => Prog.holds_bind (keeps_ask rfl fun _ => ?_))
      refine ⟨howned.trans h.owned, fun hs => hstaged.trans (h.staged hs), fun hp => ?_,
        ⟨⟨j, hend, htaken.trans ht⟩, rfl, (h.claimPath hc).2⟩, fun hm => (by cases hm), fun hrc => (hnot hrc).elim⟩
      rw [hlinked]
      exact h.linked hp
    · refine Prog.holds_bind (keeps_both_ask rfl rfl fun synced => ?_)
      have hback : HandsLeft bytes c { m with claimedMessage := false } {} y := by
        refine ⟨howned.trans h.owned, fun hs => hstaged.trans (h.staged hs), fun hp => ?_, hend.1,
          fun _ => .inl hend.2, fun hrc => (hnot hrc).elim⟩
        rw [hlinked]
        exact h.linked hp
      cases synced
      · exact ⟨hback.owned, hback.staged, hback.linked, hback.claim, hback.taken, hback.rc⟩
      · exact hback

theorem keeps_finishStage {m : Move} {r : Recovery} {x : Hands} (h : HandsLeft bytes c m r x) :
    Keeps bytes c (finishStage m) x fun m' y => HandsLeft bytes c m' r y := by
  rw [finishStage]
  split
  · exact h
  · refine Prog.holds_bind (Prog.holds_make trivial fun ok y hy => ?_)
    obtain ⟨w, w', ha⟩ := hy
    cases ha with
    | fails =>
      refine Prog.holds_bind (keeps_ask rfl fun _ => Prog.holds_bind (keeps_ask rfl fun _ => ?_))
      show HandsLeft bytes c (if _ then _ else _) r x
      split
      · exact ⟨h.owned, h.staged, h.linked, h.claim, h.taken, h.rc⟩
      · exact h
    | unlinks =>
      refine ⟨h.owned, fun _ => rfl, h.linked, h.claim, h.taken, fun hrc => ?_⟩
      obtain ⟨hp, hm, -, hrest⟩ := h.rc hrc
      exact ⟨hp, hm, rfl, hrest⟩

theorem keeps_finishStageDirectory {m : Move} {r : Recovery} {x : Hands} (h : HandsLeft bytes c m r x) :
    Keeps bytes c (finishStageDirectory m) x fun m' y => HandsLeft bytes c m' r y := by
  rw [finishStageDirectory]
  split
  · exact h
  · rename_i hm
    rw [not_or, Bool.not_eq_false] at hm
    have howned : x.owned = m.claim.created.toNat + m.stage.created.toNat := by
      rw [h.owned, Nat.add_comm]
    have hnot : m.rc = 0 → False := fun hrc => by
      have hcreated := (h.rc hrc).2.2.2.1
      rw [hm.1] at hcreated
      cases hcreated
    refine Prog.holds_bind (Prog.holds_mono (keeps_removeOwned _ howned) fun q y hy => ?_)
    obtain ⟨rfl, -, -⟩ := hy
    have hleft : HandsLeft bytes c { m with stage := q.2 } r
        { x with owned := m.claim.created.toNat + q.2.created.toNat } :=
      ⟨Nat.add_comm _ _, h.staged, h.linked, h.claim, h.taken, fun hrc => (hnot hrc).elim⟩
    show HandsLeft bytes c (if _ then _ else _) r _
    split
    · exact ⟨hleft.owned, hleft.staged, hleft.linked, hleft.claim, hleft.taken, fun hrc => by cases hrc⟩
    · exact hleft

theorem keeps_finishClaimDirectory {m : Move} {r : Recovery} {x : Hands} (h : HandsLeft bytes c m r x) :
    Keeps bytes c (finishClaimDirectory m) x fun m' y => HandsLeft bytes c m' r y := by
  rw [finishClaimDirectory]
  split
  · exact h
  · rename_i hm
    rw [not_or, Bool.not_eq_false, Bool.not_eq_true] at hm
    have hclaim := h.claim
    rw [hm.2] at hclaim
    have hnot : m.rc = 0 → False := fun hrc => by
      have hcreated := (h.rc hrc).2.2.2.2.1
      rw [hm.1] at hcreated
      cases hcreated
    refine Prog.holds_bind (Prog.holds_mono (keeps_removeOwned _ h.owned) fun q y hy => ?_)
    obtain ⟨rfl, -, -⟩ := hy
    have hleft : HandsLeft bytes c { m with claim := q.2 } r
        { x with owned := m.stage.created.toNat + q.2.created.toNat } := by
      refine ⟨rfl, h.staged, h.linked, ?_, h.taken, fun hrc => (hnot hrc).elim⟩
      show if m.claimedMessage then _ else _
      rw [hm.2]
      exact hclaim
    show HandsLeft bytes c (if _ then _ else _) r _
    split
    · exact ⟨hleft.owned, hleft.staged, hleft.linked, hleft.claim, hleft.taken, fun hrc => by cases hrc⟩
    · exact hleft

omit [DecidableEq Dir] in
/-- What is handed over is what is left. -/
theorem HandsLeft.ended {m : Move} {r : Recovery} {x : Hands} (h : HandsLeft bytes c m r x)
    {detail : Bytes} {rc sequence : ℕ} (hrc : rc = 0 → m.rc = 0) :
    MoveEnded bytes c ⟨rc, detail, reports m r, sequence⟩ x := by
  have hclaim := h.claim
  refine ⟨fun d j hd => ?_, fun j hj => ?_, fun h0 => ?_⟩
  · cases hm : m.claimedMessage with
    | false =>
      rw [hm] at hclaim
      have hnone : x.claim = none := hclaim
      rw [hnone] at hd
      cases hd
    | true =>
      rw [hm] at hclaim
      obtain ⟨⟨j', hj', -⟩, hpath, hsource⟩ := hclaim
      rw [hj'] at hd
      cases hd
      simp only [reports, hpath, hsource]
  · cases hm : m.claimedMessage with
    | false =>
      obtain hback | htaken := h.taken hm
      · exact .inl hback
      · obtain ⟨rfl, hp⟩ := htaken j hj
        obtain ⟨n, l, hl, hcopy, -⟩ := h.linked hp
        exact .inr (.inr ⟨rfl, n, l, hl, hcopy⟩)
    | true =>
      rw [hm] at hclaim
      obtain ⟨⟨j', hj', htaken⟩, -⟩ := hclaim
      rw [hj] at htaken
      cases htaken
      exact .inr (.inl ⟨_, hj'⟩)
  · have h0 := hrc h0
    obtain ⟨hp, hm, hs, hd, hd', ht, hb⟩ := h.rc h0
    obtain ⟨n, l, hl, hcopy, hpath⟩ := h.linked hp
    rw [hm] at hclaim
    refine ⟨ht, hb, hclaim, h.staged hs, ?_, n, l, hl, hcopy, ?_⟩
    · rw [h.owned, hd, hd']
      rfl
    · simp only [reports, h0, hp, hpath, and_self, if_true]

theorem keeps_finish {m : Move} {x : Hands} (h : HandsOk bytes c m x) :
    Keeps bytes c (finish m) x (MoveEnded bytes c) := by
  refine Prog.holds_bind (Prog.holds_mono (keeps_finishClose h) fun m x h => ?_)
  refine Prog.holds_bind (Prog.holds_mono (keeps_finishClose h) fun m x h => ?_)
  refine Prog.holds_bind (Prog.holds_mono (keeps_finishClaim h) fun q x h => ?_)
  refine Prog.holds_bind (Prog.holds_mono (keeps_finishStage h) fun m x h => ?_)
  refine Prog.holds_bind (Prog.holds_mono (keeps_finishStageDirectory h) fun m x h => ?_)
  refine Prog.holds_bind (Prog.holds_mono (keeps_finishClaimDirectory h) fun m x h => ?_)
  refine h.ended fun hrc => ?_
  split at hrc
  · cases hrc
  · exact hrc

/-! ### The lines of the move -/

theorem keeps_guardWith {p : MoveProg Bool} {m : Move} {x : Hands} (h : HandsOk bytes c m x) {detail : String}
    {k : MoveProg MoveResult} (hp : ∀ Q : Bool → Hands → Prop, (∀ ok, Q ok x) → Keeps bytes c p x Q)
    (hk : Keeps bytes c k x (MoveEnded bytes c)) :
    Keeps bytes c (guardWith p m detail k) x (MoveEnded bytes c) := by
  refine Prog.holds_bind (hp _ fun ok => ?_)
  cases ok
  · exact keeps_finish (h.detailed detail)
  · exact hk

theorem keeps_guardPlain {p : MoveProg Bool} {m : Move} {x : Hands} (h : HandsOk bytes c m x)
    {k : MoveProg MoveResult} (hp : ∀ Q : Bool → Hands → Prop, (∀ ok, Q ok x) → Keeps bytes c p x Q)
    (hk : Keeps bytes c k x (MoveEnded bytes c)) :
    Keeps bytes c (guardPlain p m k) x (MoveEnded bytes c) := by
  refine Prog.holds_bind (hp _ fun ok => ?_)
  cases ok
  · exact keeps_finish h
  · exact hk

/-- The check of the published name, which shows a copy to a claim. -/
theorem keeps_guardPublished {m : Move} {x : Hands} (h : HandsOk bytes c m x)
    (hG : x.claim ≠ none → (∃ d, x.claim = some (d, c.source)) ∧ Duplicated bytes c x) {detail : String}
    {k : MoveProg MoveResult} (hk : Keeps bytes c k { x with covered := true } (MoveEnded bytes c)) :
    Keeps bytes c (guardWith (.both (ask .destinationCurrent) (ask .statPublished)) m detail k) x
      (MoveEnded bytes c) := by
  refine Prog.holds_bind (Prog.holds_both (keeps_ask rfl fun ok => ?_))
  cases ok
  · exact keeps_finish (h.detailed detail)
  refine Prog.holds_make hG fun ok y hy => ?_
  obtain ⟨w, w', ha⟩ := hy
  cases ha with
  | fails => exact keeps_finish (h.detailed detail)
  | passes hk => cases hk
  | published => exact hk

/-- The check of a digest, with its two details. -/
theorem keeps_digest {m : Move} {x : Hands} (h : HandsOk bytes c m x) {detail detail' : String}
    {k : MoveProg MoveResult} (hk : Keeps bytes c k x (MoveEnded bytes c)) :
    Keeps bytes c (.bind (ask .digest) fun ok => if ok = false then
      .bind (ask .running) fun running => finish (m.detailed (if running then detail else detail'))
      else k) x (MoveEnded bytes c) := by
  refine Prog.holds_bind (keeps_ask rfl fun ok => ?_)
  cases ok
  · exact Prog.holds_bind (keeps_ask rfl fun running => keeps_finish (h.detailed _))
  · exact hk

/-- The claim goes only behind the checks of its entry and of the copy. -/
theorem keeps_removeSource {m : Move} {x : Hands} (h : HandsOk bytes c m x) (hc : m.claimedMessage = true)
    (hp : m.published = true) (hs : m.stageMessage = false) (hd : m.stage.created = false) :
    Keeps bytes c (removeSource m) x (MoveEnded bytes c) := by
  have hclaim := h.claim
  rw [hc] at hclaim
  obtain ⟨j, hj, ht⟩ := hclaim
  obtain ⟨n, l, hl, hcopy, -⟩ := h.linked hp
  have hduplicated : Duplicated bytes c x := ⟨n, l, hl, hcopy⟩
  refine Prog.holds_bind (Prog.holds_both (Prog.holds_make trivial fun ok y hy => ?_))
  obtain ⟨w, w', ha⟩ := hy
  cases ha with
  | fails => exact keeps_finish (h.detailed _)
  | passes hk => cases hk
  | @claimed _ _ d hsource =>
    -- The entry behind the claim is the pinned source.
    have hsource' : j = c.source := by
      rw [hj] at hsource
      cases hsource
      rfl
    subst hsource'
    refine keeps_ask rfl fun ok => ?_
    cases ok
    · exact keeps_finish (h.detailed _)
    refine keeps_guardWith h (fun _ => keeps_both_ask rfl rfl) ?_
    refine keeps_guardWith h (fun _ => keeps_ask rfl) ?_
    refine keeps_guardWith h (fun _ => keeps_ask rfl) ?_
    refine keeps_guardPublished h (fun _ => ⟨⟨_, hj⟩, hduplicated⟩) ?_
    have h : HandsOk bytes c m { x with covered := true } :=
      ⟨h.owned, h.staged, h.linked, h.claim, h.claimPath, h.taken, h.back, h.rc⟩
    refine keeps_digest h ?_
    refine Prog.holds_bind (Prog.holds_both (keeps_ask rfl fun ok => ?_))
    cases ok
    · exact keeps_finish (h.detailed _)
    refine Prog.holds_make trivial fun ok y hy => ?_
    obtain ⟨w, w', ha⟩ := hy
    cases ha with
    | fails => exact keeps_finish (h.detailed _)
    | passes hk => cases hk
    | claimed _ =>
      refine keeps_digest h ?_
      refine keeps_guardWith h (fun _ => keeps_ask rfl) ?_
      refine Prog.holds_bind (Prog.holds_make ⟨rfl, .inr ⟨⟨_, hj⟩, hduplicated⟩⟩ fun ok y hy => ?_)
      obtain ⟨w, w', ha⟩ := hy
      cases ha with
      | fails => exact keeps_finish (h.detailed _)
      | drops =>
        have htaken : ∀ j, x.taken = some j → j = c.source ∧ m.published = true := fun j hj => by
          rw [ht] at hj
          cases hj
          exact ⟨rfl, hp⟩
        have hnot : m.rc = 0 → False := fun hrc => by
          have hm := (h.rc hrc).2.1
          rw [hc] at hm
          cases hm
        have hremoved : HandsOk bytes c { m with claimedMessage := false } { x with covered := true, claim := none } :=
          ⟨h.owned, h.staged, h.linked, rfl, fun hm => (by cases hm), fun _ => htaken, h.back,
            fun hrc => (hnot hrc).elim⟩
        refine keeps_guardWith hremoved (fun _ => keeps_ask rfl) ?_
        refine Prog.holds_bind (Prog.holds_mono (keeps_removeOwned _ hremoved.owned) fun q y hy => ?_)
        obtain ⟨rfl, hgone, -⟩ := hy
        obtain ⟨ok, d⟩ := q
        cases ok
        · exact keeps_finish ⟨rfl, h.staged, h.linked, rfl, fun hm => (by cases hm), fun _ => htaken, h.back,
            fun hrc => (hnot hrc).elim⟩
        · exact keeps_finish ⟨rfl, h.staged, h.linked, rfl, fun hm => (by cases hm), fun _ => htaken, h.back,
            fun _ => ⟨hp, rfl, hs, hd, hgone rfl, ht⟩⟩

theorem keeps_claimSource {m : Move} {x : Hands} (h : HandsOk bytes c m x) (hc : m.claimedMessage = false)
    (hp : m.published = true) (hs : m.stageMessage = false) (hd : m.stage.created = false)
    (hnone : m.claim.created = false) (ht : x.taken = none) :
    Keeps bytes c (claimSource c.input m) x (MoveEnded bytes c) := by
  have hclaim := h.claim
  rw [hc] at hclaim
  have hnot : m.rc = 0 → False := fun hrc => by
    have htaken := (h.rc hrc).2.2.2.2.2
    rw [ht] at htaken
    cases htaken
  have hfree : ∀ {m' : Move}, m'.claimedMessage = m.claimedMessage → m'.claimedMessage = true → False :=
    fun hm' hm => by
      rw [hm', hc] at hm
      cases hm
  refine keeps_guardWith h (fun _ => keeps_ask rfl) ?_
  refine keeps_guardWith h (fun _ => keeps_ask rfl) ?_
  refine Prog.holds_bind (Prog.holds_mono (keeps_createOwned _ _ _ _ x) fun q y hy => ?_)
  obtain ⟨rfl, hcreated⟩ := hy
  have howned : x.owned + q.2.1.created.toNat = m.stage.created.toNat + q.2.1.created.toNat := by
    rw [h.owned, hnone]
    rfl
  have hmade : ∀ path, HandsOk bytes c { m with claim := q.2.1, sequence := q.2.2, claimPath := path }
      { x with owned := x.owned + q.2.1.created.toNat } := by
    refine fun path => ⟨howned, h.staged, h.linked, ?_, fun hm => (hfree rfl hm).elim, h.taken, h.back,
      fun hrc => (hnot hrc).elim⟩
    show if m.claimedMessage then _ else _
    rw [hc]
    exact hclaim
  obtain ⟨ok, d, sequence⟩ := q
  cases ok
  · exact keeps_finish ((hmade m.claimPath).detailed _)
  have hcreated : d.created = true := hcreated rfl
  refine keeps_guardWith (hmade m.claimPath) (fun _ => keeps_ask rfl) ?_
  have h := hmade (some (recoveryPath c.input d.name))
  refine keeps_guardWith h (fun _ => keeps_ask rfl) ?_
  refine keeps_guardWith h (fun _ => keeps_ask rfl) ?_
  refine keeps_guardPublished h (fun hclaimed => (hclaimed hclaim).elim) ?_
  have h : HandsOk bytes c
      { m with claim := d, sequence, claimPath := some (recoveryPath c.input d.name) }
      { x with owned := x.owned + d.created.toNat, covered := true } :=
    ⟨h.owned, h.staged, h.linked, h.claim, h.claimPath, h.taken, h.back, h.rc⟩
  refine keeps_digest h ?_
  refine Prog.holds_bind (Prog.holds_make hclaim fun ok y hy => ?_)
  obtain ⟨w, w', ha⟩ := hy
  cases ha with
  | fails => exact keeps_finish (h.detailed _)
  | @claims _ _ _ j =>
    refine keeps_removeSource ?_ rfl hp hs hd
    exact ⟨h.owned, h.staged, h.linked, ⟨j, rfl, rfl⟩, fun _ => ⟨hcreated, rfl⟩, fun hm => (by cases hm), h.back,
      fun hrc => (hnot hrc).elim⟩

theorem keeps_publishLoop {n attempt : ℕ} {m : Move} {x : Hands} (h : HandsOk bytes c m x)
    (hp : m.published = false) (hb : x.staged = some (bytes c.source)) (hh : Classified bytes c) :
    Keeps bytes c (publishLoop c.input n attempt m) x fun q y =>
      HandsOk bytes c q.2 y ∧ y.taken = x.taken ∧ q.2.claimedMessage = m.claimedMessage ∧ q.2.stage = m.stage ∧
        q.2.claim = m.claim ∧ (q.1 = true → q.2.published = true) := by
  have hnot : m.rc = 0 → False := fun hrc => by
    have hpublished := (h.rc hrc).1
    rw [hp] at hpublished
    cases hpublished
  induction n generalizing attempt with
  | zero => exact ⟨h.detailed _, rfl, rfl, rfl, rfl, fun hq => (by cases hq)⟩
  | succ n ih =>
    refine Prog.holds_bind (Prog.holds_state fun s => ?_)
    split
    · exact ⟨h.detailed _, rfl, rfl, rfl, rfl, fun hq => (by cases hq)⟩
    · rename_i candidate _
      refine Prog.holds_bind (keeps_both_ask rfl rfl fun ok => ?_)
      cases ok
      · exact ⟨h.detailed _, rfl, rfl, rfl, rfl, fun hq => (by cases hq)⟩
      refine Prog.holds_bind (Prog.holds_make trivial fun ok y hy => ?_)
      obtain ⟨w, w', ha⟩ := hy
      cases ha with
      | fails =>
        refine Prog.holds_bind (keeps_ask rfl fun again => ?_)
        cases again
        · exact ⟨h.detailed _, rfl, rfl, rfl, rfl, fun hq => (by cases hq)⟩
        · exact ih
      | @links _ _ _ j hj =>
        have hcopy : bytes j = bytes c.source := by
          rw [hb] at hj
          exact (Option.some.inj hj).symm
        refine ⟨⟨h.owned, h.staged, fun _ => ⟨candidate, j, rfl, ⟨hcopy, hh⟩, rfl⟩, h.claim, h.claimPath,
          fun hm k hk => ⟨(h.taken hm k hk).1, rfl⟩, h.back, fun hrc => (hnot hrc).elim⟩,
          rfl, rfl, rfl, rfl, fun _ => rfl⟩

theorem keeps_publishCopy {m : Move} {x : Hands} (h : HandsOk bytes c m x) (hc : m.claimedMessage = false)
    (hp : m.published = false) (hnone : m.claim.created = false) (ht : x.taken = none)
    (hb : x.staged = some (bytes c.source)) (hh : Classified bytes c) :
    Keeps bytes c (publishCopy c.input m) x (MoveEnded bytes c) := by
  refine keeps_guardWith h (fun _ => keeps_ask rfl) ?_
  refine keeps_guardWith h (fun _ => keeps_ask rfl) ?_
  refine keeps_guardWith h (fun _ => keeps_ask rfl) ?_
  refine keeps_guardWith h (fun _ => keeps_ask rfl) ?_
  refine Prog.holds_bind (Prog.holds_mono (keeps_publishLoop h hp hb hh) fun q y hy => ?_)
  obtain ⟨ok, m'⟩ := q
  obtain ⟨h, htaken, hclaimed, -, hclaim, hpublished⟩ := hy
  cases ok
  · exact keeps_finish h
  have hp : m'.published = true := hpublished rfl
  have hc : m'.claimedMessage = false := hclaimed.trans hc
  have ht : y.taken = none := htaken.trans ht
  have hnone : m'.claim.created = false := by
    rw [show m'.claim = m.claim from hclaim]
    exact hnone
  have hnot : m'.rc = 0 → False := fun hrc => by
    have htaken := (h.rc hrc).2.2.2.2.2
    rw [ht] at htaken
    cases htaken
  refine keeps_guardWith h (fun _ => keeps_both_ask rfl rfl) ?_
  refine Prog.holds_bind (Prog.holds_make trivial fun ok z hz => ?_)
  obtain ⟨w, w', ha⟩ := hz
  cases ha with
  | fails => exact keeps_finish (h.detailed _)
  | unlinks =>
    have hgone : HandsOk bytes c { m' with stageMessage := false } { y with staged := none } :=
      ⟨h.owned, fun _ => rfl, h.linked, h.claim, h.claimPath, h.taken, h.back, fun hrc => (hnot hrc).elim⟩
    refine keeps_guardWith hgone (fun _ => keeps_ask rfl) ?_
    have howned : y.owned = m'.claim.created.toNat + m'.stage.created.toNat := by
      rw [h.owned, Nat.add_comm]
    refine Prog.holds_bind (Prog.holds_mono (keeps_removeOwned m'.stage (x := { y with staged := none }) howned)
      fun q z hz => ?_)
    obtain ⟨rfl, hremoved, -⟩ := hz
    obtain ⟨ok, d⟩ := q
    have hstage : HandsOk bytes c { m' with stageMessage := false, stage := d }
        { y with staged := none, owned := m'.claim.created.toNat + d.created.toNat } :=
      ⟨Nat.add_comm _ _, fun _ => rfl, h.linked, h.claim, h.claimPath, h.taken, h.back, fun hrc => (hnot hrc).elim⟩
    cases ok
    · exact keeps_finish (hstage.detailed _)
    · exact keeps_claimSource hstage hc hp rfl (hremoved rfl) hnone ht

omit [DecidableEq Dir] in
/-- A copy that was checked is the source, byte for byte. -/
theorem copy_done {e : CopyCalls} {fuel : ℕ} (h : (c.copy bytes e fuel).ends = .done) :
    (c.copy bytes e fuel).stage = bytes c.source ∧ Classified bytes c := by
  obtain ⟨-, hexact⟩ := copyMessage_exact e fuel (bytes c.source) (bytes c.source).length c.headerSize
    c.headerDigest
  obtain ⟨-, hstage, hheader, -⟩ := hexact h
  rw [List.take_length] at hstage hheader
  exact ⟨hstage, hheader⟩

/-- The locals before anything is made. -/
structure MoveFresh (m : Move) : Prop where
  stage : m.stage.created = false
  claim : m.claim.created = false
  stageMessage : m.stageMessage = false
  claimedMessage : m.claimedMessage = false
  published : m.published = false
  rc : m.rc ≠ 0

omit [DecidableEq Dir] in
theorem MoveFresh.ok {m : Move} (h : MoveFresh m) : HandsOk bytes c m {} := by
  refine ⟨?_, fun _ => rfl, fun hp => ?_, ?_, fun hm => ?_, fun _ j hj => (by cases hj), rfl,
    fun hrc => (h.rc hrc).elim⟩
  · rw [h.stage, h.claim]
    rfl
  · rw [h.published] at hp
    cases hp
  · rw [h.claimedMessage]
    rfl
  · rw [h.claimedMessage] at hm
    cases hm

theorem keeps_stageCopy {m : Move} (hm : MoveFresh m) :
    Keeps bytes c (stageCopy c.input m) {} (MoveEnded bytes c) := by
  refine Prog.holds_bind (Prog.holds_mono (keeps_createOwned _ _ _ _ _) fun q y hy => ?_)
  obtain ⟨rfl, hcreated⟩ := hy
  have hnot : ∀ {m' : Move}, m'.rc = m.rc → m'.rc = 0 → False := fun hm' hrc => hm.rc (hm' ▸ hrc)
  have hlinked : m.published = true → False := fun hp => by
    rw [hm.published] at hp
    cases hp
  have hfree : m.claimedMessage = true → False := fun hc => by
    rw [hm.claimedMessage] at hc
    cases hc
  have howned : ((0 : ℕ) + q.2.1.created.toNat) = q.2.1.created.toNat + m.claim.created.toNat := by
    rw [hm.claim, Nat.zero_add]
    rfl
  have hmade : ∀ path, HandsOk bytes c { m with stage := q.2.1, sequence := q.2.2, stagePath := path }
      { owned := 0 + q.2.1.created.toNat } := by
    refine fun path => ⟨howned, fun _ => rfl, fun hp => (hlinked hp).elim, ?_, fun hc => (hfree hc).elim,
      fun _ j hj => (by cases hj), rfl, fun hrc => (hnot rfl hrc).elim⟩
    show if m.claimedMessage then _ else _
    rw [hm.claimedMessage]
    rfl
  obtain ⟨ok, d, sequence⟩ := q
  cases ok
  · exact keeps_finish (hmade m.stagePath)
  refine keeps_guardWith (hmade m.stagePath) (fun _ => keeps_ask rfl) ?_
  have h := hmade (some (stagePathOf c.input d.name))
  refine keeps_guardWith h (fun _ => keeps_ask rfl) ?_
  have h := hmade (some (messagePath c.input d.name))
  refine Prog.holds_bind (Prog.holds_make trivial fun ok y hy => ?_)
  obtain ⟨w, w', ha⟩ := hy
  cases ha with
  | fails => exact keeps_finish h
  | creates =>
    have hstaged : ∀ (file copyfd : Bool) (b : Bytes), HandsOk bytes c
        { m with
          stage := d
          sequence
          stagePath := some (messagePath c.input d.name)
          file
          copyfd
          stageMessage := true } { owned := 0 + d.created.toNat, staged := some b } :=
      fun _ _ b => ⟨h.owned, fun hs => (by cases hs), h.linked, h.claim, h.claimPath, h.taken, h.back,
        fun hrc => (hnot rfl hrc).elim⟩
    refine Prog.holds_bind (Prog.holds_make trivial fun ok y hy => ?_)
    obtain ⟨w, w', ha⟩ := hy
    cases ha with
    | fails hk => exact (hk rfl).elim
    | passes hk => cases hk
    | copies e fuel =>
      by_cases hdone : (c.copy bytes e fuel).ends = .done
      · -- The staged file is the source, byte for byte.
        obtain ⟨hsame, hheader⟩ := copy_done hdone
        rw [decide_eq_true hdone, hsame]
        have h := hstaged true m.copyfd (bytes c.source)
        refine keeps_guardPlain h (fun _ => keeps_ask rfl) ?_
        refine keeps_guardPlain h (fun _ => keeps_ask rfl) ?_
        have h := hstaged false true (bytes c.source)
        refine keeps_guardWith h (fun _ => keeps_ask rfl) ?_
        exact keeps_publishCopy h hm.claimedMessage hm.published hm.claim rfl rfl hheader
      · rw [decide_eq_false hdone]
        refine Prog.holds_bind (Prog.holds_state fun s => keeps_finish ?_)
        have h := hstaged true m.copyfd (c.copy bytes e fuel).stage
        exact ⟨h.owned, h.staged, h.linked, h.claim, h.claimPath, h.taken, h.back, h.rc⟩

/-- A move alone keeps its bounds and accounts for what it leaves. -/
theorem keeps_storageMove (c : MoveArgs Dir) :
    Keeps bytes c (storageMove c.input c.sequence) {} (MoveEnded bytes c) := by
  have hfresh : ∀ rc ≠ 0, MoveFresh { sequence := c.sequence, rc } :=
    fun rc hrc => ⟨rfl, rfl, rfl, rfl, rfl, hrc⟩
  have h : HandsOk bytes c { sequence := c.sequence } {} := (hfresh 7 (by decide)).ok
  have hnoop : HandsOk bytes c { sequence := c.sequence, rc := 1 } {} := (hfresh 1 (by decide)).ok
  refine keeps_guardWith h (fun _ => keeps_ask rfl) ?_
  refine keeps_guardWith h (fun _ => keeps_ask rfl) ?_
  refine keeps_guardPlain h (fun _ => keeps_ask rfl) ?_
  refine keeps_guardWith h (fun _ => keeps_ask rfl) ?_
  refine keeps_guardPlain h (fun _ => keeps_both_ask rfl rfl) ?_
  refine keeps_guardPlain hnoop (fun _ => keeps_ask rfl) ?_
  refine keeps_guardPlain h (fun _ => keeps_ask rfl) ?_
  refine keeps_guardPlain hnoop (fun _ => keeps_ask rfl) ?_
  refine keeps_guardWith h (fun _ => keeps_ask rfl) ?_
  exact keeps_stageCopy (hfresh 7 (by decide))

end Alone

/-! ### All moves together -/

section System

variable {ι : Type} [DecidableEq ι]

/-- Moves, each with its arguments, and the mail they share. -/
abbrev MoveSystem (Dir ι : Type) := Prog.Threads MoveDisk MoveSys MoveResult Hands (Mail Dir) ι

/-- Every move is at its start. -/
structure AtStart (calls : ι → MoveArgs Dir) (s : MoveSystem Dir ι) : Prop where
  program : ∀ i, s.program i = storageMove (calls i).input (calls i).sequence
  hands : ∀ i, s.hands i = {}

/-- Any number of steps of the moves and of the other clients. -/
abbrev MoveReach (bytes : ℕ → Bytes) (calls : ι → MoveArgs Dir) (others : Mail Dir → Mail Dir → Prop) :
    MoveSystem Dir ι → MoveSystem Dir ι → Prop :=
  Prog.Threads.Reach (fun i => MoveAct bytes (calls i)) others

abbrev MovesKept (bytes : ℕ → Bytes) (calls : ι → MoveArgs Dir) (I : Mail Dir → (ι → Hands) → Prop) :
    MoveSystem Dir ι → Prop :=
  Prog.Threads.Kept (fun i => MoveOwn bytes (calls i)) (fun i => MoveBound bytes (calls i))
    (fun i => MoveEnded bytes (calls i)) I

omit [DecidableEq ι] in
theorem atStart_kept {calls : ι → MoveArgs Dir} {s : MoveSystem Dir ι} (hs : AtStart calls s)
    {I : Mail Dir → (ι → Hands) → Prop} (hI : I s.shared s.hands) : MovesKept bytes calls I s := by
  refine ⟨hI, fun i => ?_⟩
  rw [hs.program, hs.hands]
  exact keeps_storageMove (calls i)

/-- No interleaving of moves that fail, stop or are killed anywhere, and of other
clients that leave the message a public name, loses the message: it has a public
name or lies in the claim directory of a move, which a move that has ended
returns. -/
theorem message_survives (bytes : ℕ → Bytes) (calls : ι → MoveArgs Dir) (others : Mail Dir → Mail Dir → Prop)
    (message : Bytes) (hothers : ∀ w w', others w w' → Public bytes w message → Public bytes w' message)
    (s t : MoveSystem Dir ι) (hs : AtStart calls s) (hpublic : Public bytes s.shared message)
    (hreach : MoveReach bytes calls others s t) :
    Public bytes t.shared message ∨ ∃ i d j, (t.hands i).claim = some (d, j) ∧ bytes j = message ∧
      ∀ r, t.program i = .done r → r.recovery.source = some (recoveryPath (calls i).input d) := by
  have hkept : MovesKept bytes calls (Survives bytes message) t := by
    refine (atStart_kept hs (.inl hpublic)).reach (fun i c x w ok y w' ha => ⟨w, w', ha⟩) ?_ ?_ hreach
    · intro w w' xs hw hI
      obtain hI | hI := hI
      · exact .inl (hothers w w' hw hI)
      · exact .inr hI
    · intro i c w ok y w' xs hG ha hI
      exact hI.act hG ha
  obtain h | ⟨i, d, j, hj, hb, -⟩ := hkept.shared
  · exact .inl h
  · exact .inr ⟨i, d, j, hj, hb, fun r hr => (hkept.ended hr).held d j hj⟩

theorem reach_kept (bytes : ℕ → Bytes) {calls : ι → MoveArgs Dir} {others : Mail Dir → Mail Dir → Prop}
    {s t : MoveSystem Dir ι} (hs : AtStart calls s) (hreach : MoveReach bytes calls others s t) :
    MovesKept bytes calls (fun _ _ => True) t :=
  (atStart_kept hs trivial).reach (fun _ _ _ w _ _ w' ha => ⟨w, w', ha⟩) (fun _ _ _ _ _ => trivial)
    (fun _ _ _ _ _ _ _ _ _ _ => trivial) hreach

/-- Whatever the others did meanwhile, a move that has ended accounts for what it
took: the entry is back, in a claim whose path is returned, or it was the source
and a copy was published; and a return of 0 is a message moved, with nothing of
the move left behind. -/
theorem move_ended (bytes : ℕ → Bytes) (calls : ι → MoveArgs Dir) (others : Mail Dir → Mail Dir → Prop)
    (s t : MoveSystem Dir ι) (hs : AtStart calls s) (hreach : MoveReach bytes calls others s t) (i : ι)
    (r : MoveResult) (hr : t.program i = .done r) : MoveEnded bytes (calls i) r (t.hands i) :=
  (reach_kept bytes hs hreach).ended hr

/-- Who loses an entry to a step of move `i`: the source name, to its claim; a
claim, to the name it came from; or a claim whose entry is the source, after a
copy was published, or has been put back. -/
structure StepSpares (bytes : ℕ → Bytes) (c : MoveArgs Dir) (x y : Hands) (w w' : Mail Dir) : Prop where
  names : ∀ d n j, w.entry d n = some j → w'.entry d n = some j ∨
    d = c.parent ∧ n = c.input.name ∧ w'.entry d n = none ∧ ∃ e, y.claim = some (e, j)
  claim : ∀ d j, x.claim = some (d, j) → y.claim = some (d, j) ∨
    y.claim = none ∧ (w'.entry c.parent c.input.name = some j ∨ x.back = true ∨
      j = c.source ∧ Duplicated bytes c x)

theorem set_spares {w : Mail Dir} {dir : Dir} {name : Bytes} (file : Option ℕ) (hnone : w.entry dir name = none)
    {d : Dir} {n : Bytes} {j : ℕ} (hj : w.entry d n = some j) : (w.set dir name file).entry d n = some j := by
  have hne : ¬ (d = dir ∧ n = name) := by
    rintro ⟨rfl, rfl⟩
    rw [hnone] at hj
    cases hj
  simp only [Mail.set, if_neg hne]
  exact hj

theorem MoveBound.spares {c : MoveArgs Dir} {s : MoveSys} {x y : Hands} {w w' : Mail Dir} {ok : Bool}
    (hG : MoveBound bytes c s x) (ha : MoveAct bytes c s (x, w) ok (y, w')) : StepSpares bytes c x y w w' := by
  cases ha with
  | fails => exact ⟨fun _ _ _ h => .inl h, fun _ _ h => .inl h⟩
  | passes => exact ⟨fun _ _ _ h => .inl h, fun _ _ h => .inl h⟩
  | copies => exact ⟨fun _ _ _ h => .inl h, fun _ _ h => .inl h⟩
  | makes => exact ⟨fun _ _ _ h => .inl h, fun _ _ h => .inl h⟩
  | removes => exact ⟨fun _ _ _ h => .inl h, fun _ _ h => .inl h⟩
  | claimed => exact ⟨fun _ _ _ h => .inl h, fun _ _ h => .inl h⟩
  | published => exact ⟨fun _ _ _ h => .inl h, fun _ _ h => .inl h⟩
  | creates => exact ⟨fun _ _ _ h => .inl h, fun _ _ h => .inl h⟩
  | unlinks => exact ⟨fun _ _ _ h => .inl h, fun _ _ h => .inl h⟩
  | links _ hnone => exact ⟨fun _ _ _ h => .inl (set_spares _ hnone h), fun _ _ h => .inl h⟩
  | @claims _ _ d j hj =>
    refine ⟨fun d' n j' h => ?_, fun d' j' h => ?_⟩
    · by_cases hentry : d' = c.parent ∧ n = c.input.name
      · obtain ⟨rfl, rfl⟩ := hentry
        rw [hj] at h
        cases h
        exact .inr ⟨rfl, rfl, by simp only [Mail.set, and_self, if_true], d, rfl⟩
      · refine .inl ?_
        simp only [Mail.set, if_neg hentry]
        exact h
    · have hnone : x.claim = none := hG
      rw [hnone] at h
      cases h
  | @renamesBack _ _ d j hclaim hnone =>
    refine ⟨fun _ _ _ h => .inl (set_spares _ hnone h), fun d' j' h => .inr ⟨rfl, .inl ?_⟩⟩
    rw [hclaim] at h
    cases h
    simp only [Mail.set, and_self, if_true]
  | @linksBack _ _ d j hclaim hnone => exact ⟨fun _ _ _ h => .inl (set_spares _ hnone h), fun _ _ h => .inl h⟩
  | drops =>
    refine ⟨fun _ _ _ h => .inl h, fun d j h => .inr ⟨rfl, .inr ?_⟩⟩
    obtain ⟨-, hback | ⟨⟨d', hd'⟩, hcopy⟩⟩ := hG
    · exact .inl hback
    · rw [h] at hd'
      cases hd'
      exact .inr ⟨rfl, hcopy⟩

/-- No step of a move overwrites an entry, and what it takes away is its own to
take, in every reachable state. -/
theorem move_spares (bytes : ℕ → Bytes) (calls : ι → MoveArgs Dir) (others : Mail Dir → Mail Dir → Prop)
    (s t : MoveSystem Dir ι) (hs : AtStart calls s) (hreach : MoveReach bytes calls others s t) (i : ι)
    (call : MoveSys) (k : Bool → MoveProg MoveResult) (hi : t.program i = .call call k) (ok : Bool) (y : Hands)
    (w : Mail Dir) (ha : MoveAct bytes (calls i) call (t.hands i, t.shared) ok (y, w)) :
    StepSpares bytes (calls i) (t.hands i) y t.shared w := by
  have hholds := (reach_kept bytes hs hreach).holds i
  rw [hi] at hholds
  exact hholds.1.spares ha

/-! ### A schedule -/

/-- A kernel that lets every call succeed that finds what it needs; the copying
succeeds as `copied` says and leaves `stage`. -/
def obliging (bytes : ℕ → Bytes) (c : MoveArgs Dir) (copied : Bool) (stage : Bytes) (copy : ℕ) :
    MoveSys → Hands × Mail Dir → Bool × (Hands × Mail Dir)
  | .check .copied, (x, w) => (copied, { x with staged := some stage }, w)
  | .check .makeDirectory, (x, w) => (true, { x with owned := x.owned + 1 }, w)
  | .check .removeDirectory, (x, w) => (true, { x with owned := x.owned - 1 }, w)
  | .check .statClaimed, (x, w) => (decide (x.claim.map Prod.snd = some c.source), x, w)
  | .check .statPublished, (x, w) =>
    match x.linked with
    | some (n, j) => if w.entry c.cur n = some j then (true, { x with covered := true }, w) else (false, x, w)
    | none => (false, x, w)
  | .check .otherThanCur, (x, w) => (true, x, w)
  | .check _, (x, w) => (true, x, w)
  | .createMessage _, (x, w) => (true, { x with staged := some [] }, w)
  | .linkMessage n, (x, w) =>
    if x.staged = some (bytes copy) ∧ w.entry c.cur n = none then
      (true, { x with linked := some (n, copy) }, w.set c.cur n (some copy))
    else (false, x, w)
  | .unlinkMessage, (x, w) => (true, { x with staged := none }, w)
  | .claimSource d, (x, w) =>
    match w.entry c.parent c.input.name with
    | some j => (true, { x with claim := some (d, j), taken := some j, covered := false },
        w.set c.parent c.input.name none)
    | none => (false, x, w)
  | .unlinkClaimed, (x, w) => (true, { x with claim := none }, w)
  | .restoreRename, (x, w) => (false, x, w)
  | .restoreLink, (x, w) => (false, x, w)

theorem obliging_act (bytes : ℕ → Bytes) (c : MoveArgs Dir) (e : CopyCalls) (fuel copy : ℕ) {copied : Bool}
    {stage : Bytes} (hends : decide ((c.copy bytes e fuel).ends = .done) = copied)
    (hstage : (c.copy bytes e fuel).stage = stage) (s : MoveSys) (x : Hands) (w : Mail Dir) :
    MoveAct bytes c s (x, w) (obliging bytes c copied stage copy s (x, w)).1
      (obliging bytes c copied stage copy s (x, w)).2 := by
  subst hends hstage
  cases s with
  | createMessage => exact .creates
  | unlinkMessage => exact .unlinks
  | unlinkClaimed => exact .drops
  | restoreRename => exact .fails (by decide)
  | restoreLink => exact .fails (by decide)
  | linkMessage n =>
    rw [obliging]
    split
    · rename_i h
      exact .links h.1 h.2
    · exact .fails (by intro h; cases h)
  | claimSource d =>
    rw [obliging]
    split
    · rename_i h
      exact .claims h
    · exact .fails (by intro h; cases h)
  | check k =>
    cases k with
    | copied => exact .copies e fuel
    | makeDirectory => exact .makes
    | removeDirectory => exact .removes
    | statClaimed =>
      rw [obliging]
      by_cases h : x.claim.map Prod.snd = some c.source
      · rw [decide_eq_true h]
        obtain ⟨⟨d, j⟩, hclaim, hj⟩ := Option.map_eq_some_iff.mp h
        obtain rfl : j = c.source := hj
        exact .claimed hclaim
      · rw [decide_eq_false h]
        exact .fails (by decide)
    | statPublished =>
      rw [obliging]
      split
      · split
        · rename_i hl hcur
          exact .published hl hcur
        · exact .fails (by decide)
      · exact .fails (by decide)
    | _ => exact .passes rfl

/-- A program run alone by such a kernel, up to a call it is not let into. -/
def playAlone (stop : MoveSys → Bool) (f : MoveSys → Hands × Mail Dir → Bool × (Hands × Mail Dir)) (v : MoveDisk) :
    MoveProg MoveResult → Hands × Mail Dir → MoveProg MoveResult × (Hands × Mail Dir)
  | .done r, x => (.done r, x)
  | .look k, x => playAlone stop f v (k v) x
  | .call s k, x => if stop s then (.call s k, x) else playAlone stop f v (k (f s x).1) (f s x).2

theorem playAlone_reach (calls : ι → MoveArgs Dir) (others : Mail Dir → Mail Dir → Prop) (i : ι)
    (stop : MoveSys → Bool) {f : MoveSys → Hands × Mail Dir → Bool × (Hands × Mail Dir)}
    (hf : ∀ s x w, MoveAct bytes (calls i) s (x, w) (f s (x, w)).1 (f s (x, w)).2) (v : MoveDisk)
    (s : MoveSystem Dir ι) :
    ∃ t, MoveReach bytes calls others s t ∧
      t.program i = (playAlone stop f v (s.program i) (s.hands i, s.shared)).1 ∧
      (t.hands i, t.shared) = (playAlone stop f v (s.program i) (s.hands i, s.shared)).2 ∧
      ∀ j, j ≠ i → t.program j = s.program j ∧ t.hands j = s.hands j := by
  obtain ⟨p, hp⟩ : ∃ p, s.program i = p := ⟨_, rfl⟩
  induction p generalizing s with
  | done r =>
    refine ⟨s, .refl, ?_⟩
    rw [hp]
    exact ⟨rfl, rfl, fun _ _ => ⟨rfl, rfl⟩⟩
  | look k ih =>
    obtain ⟨t, hreach, ht, hx, hrest⟩ := ih v (s.advance i (k v) (s.hands i) s.shared)
      (by simp only [Prog.Threads.advance, Function.update_self])
    simp only [Prog.Threads.advance, Function.update_self] at ht hx
    refine ⟨t, .head (.look v hp) hreach, ?_⟩
    rw [hp]
    refine ⟨ht, hx, fun j hj => ?_⟩
    simpa only [Prog.Threads.advance, Function.update_of_ne hj] using hrest j hj
  | call c k ih =>
    rw [hp, playAlone]
    split
    · exact ⟨s, .refl, hp, rfl, fun _ _ => ⟨rfl, rfl⟩⟩
    have hact := hf c (s.hands i) s.shared
    obtain ⟨t, hreach, ht, hx, hrest⟩ := ih (f c (s.hands i, s.shared)).1
      (s.advance i (k (f c (s.hands i, s.shared)).1) (f c (s.hands i, s.shared)).2.1
        (f c (s.hands i, s.shared)).2.2) (by simp only [Prog.Threads.advance, Function.update_self])
    simp only [Prog.Threads.advance, Function.update_self] at ht hx
    refine ⟨t, .head (.call hp hact) hreach, ht, hx, fun j hj => ?_⟩
    simpa only [Prog.Threads.advance, Function.update_of_ne hj] using hrest j hj

end System

/-! ### Two moves of one message -/

/-- A message of three bytes, and any other file empty. -/
def sampleBytes (j : ℕ) : Bytes := if j ≤ 2 then [72, 58, 10] else []

/-- From the inbox `false` to the Maildir `true`. -/
def sampleCall (i : Bool) : MoveArgs Bool where
  input := sampleMove
  sequence := i.toNat
  parent := false
  cur := true
  source := 1
  headerSize := 3
  headerDigest := sha256Hex (sha256Update sha256Init [72, 58, 10])

def sampleSystem : MoveSystem Bool Bool where
  shared := { entry := fun d n => if d = false ∧ n = sampleMove.name then some 1 else none }
  program i := storageMove (sampleCall i).input (sampleCall i).sequence
  hands _ := {}

theorem sampleSystem_atStart : AtStart sampleCall sampleSystem := ⟨fun _ => rfl, fun _ => rfl⟩

/-- What the other clients of the sample leave alone. -/
def sampleOthers (w w' : Mail Bool) : Prop :=
  Public sampleBytes w [72, 58, 10] → Public sampleBytes w' [72, 58, 10]

theorem sampleSystem_public : Public sampleBytes sampleSystem.shared [72, 58, 10] :=
  ⟨false, sampleMove.name, 1, by decide, by decide⟩

abbrev SampleReach : MoveSystem Bool Bool → MoveSystem Bool Bool → Prop :=
  MoveReach sampleBytes sampleCall sampleOthers

def sampleDisk : MoveDisk := { answers := fun _ => true, limits := fun _ => .most 255, copyDetail := [] }

/-- One of the moves, run by the kernel that lets everything succeed. -/
abbrev samplePlays (stop : MoveSys → Bool) (i : Bool) (p : MoveProg MoveResult) (x : Hands × Mail Bool) :
    MoveProg MoveResult × (Hands × Mail Bool) :=
  playAlone stop (obliging sampleBytes (sampleCall i) true (sampleBytes 1) 2) sampleDisk p x

theorem samplePlays_reach (stop : MoveSys → Bool) (i : Bool) (s : MoveSystem Bool Bool) :
    ∃ t, SampleReach s t ∧ t.program i = (samplePlays stop i (s.program i) (s.hands i, s.shared)).1 ∧
      (t.hands i, t.shared) = (samplePlays stop i (s.program i) (s.hands i, s.shared)).2 ∧
      ∀ j, j ≠ i → t.program j = s.program j ∧ t.hands j = s.hands j := by
  obtain ⟨digest, hcopied⟩ := copyMessage_moving moving_bytewise (sampleBytes 1) 3 9 (by decide)
  have htake : (sampleBytes 1).take 3 = [72, 58, 10] := rfl
  rw [htake] at hcopied
  have hcopy : (sampleCall i).copy sampleBytes bytewise 9 = ⟨.done, sampleBytes 1, digest⟩ := hcopied
  have hends : decide (((sampleCall i).copy sampleBytes bytewise 9).ends = .done) = true := by rw [hcopy]; rfl
  have hstage : ((sampleCall i).copy sampleBytes bytewise 9).stage = sampleBytes 1 := by rw [hcopy]
  exact playAlone_reach sampleCall sampleOthers i stop
    (obliging_act sampleBytes (sampleCall i) bytewise 9 2 hends hstage) sampleDisk s

/-- The call a program is at. -/
def pending : MoveProg MoveResult → Option MoveSys
  | .call s _ => some s
  | _ => none

theorem exists_of_pending {p : MoveProg MoveResult} {s : MoveSys} (h : pending p = some s) : ∃ k, p = .call s k := by
  cases p with
  | done => cases h
  | look => cases h
  | call c k =>
    cases h
    exact ⟨k, rfl⟩

/-- The result of a program that has ended. -/
def ended : MoveProg MoveResult → Option MoveResult
  | .done r => some r
  | _ => none

theorem eq_done_of_ended {p : MoveProg MoveResult} {r : MoveResult} (h : ended p = some r) : p = .done r := by
  cases p with
  | done =>
    cases h
    rfl
  | look => cases h
  | call => cases h

/-- One move is killed before it removes its claim, another client makes a new entry of the old
name, and the second move takes that one and keeps it. -/
theorem sampleSystem_contended : ∃ t r d, SampleReach sampleSystem t ∧
    pending (t.program true) = some .unlinkClaimed ∧ t.program false = .done r ∧ r.rc = 7 ∧
    (t.hands false).claim = some (d, 5) := by
  obtain ⟨s, hs, hprogram, hstate, hrest⟩ :=
    samplePlays_reach (fun c => c matches .unlinkClaimed) true sampleSystem
  have hat : pending (s.program true) = some .unlinkClaimed := by
    rw [hprogram]
    decide
  have hshared : s.shared = (samplePlays (fun c => c matches .unlinkClaimed) true (sampleSystem.program true)
      (sampleSystem.hands true, sampleSystem.shared)).2.2 := congrArg Prod.snd hstate
  have hcopy : s.shared.entry true [120, 58, 50, 44, 83] = some 2 := by
    rw [hshared]
    decide
  have hforeign : sampleOthers s.shared (s.shared.set false sampleMove.name (some 5)) := fun _ =>
    ⟨true, _, 2, hcopy, by decide⟩
  obtain ⟨t, ht, hdone, hleft, hsame⟩ := samplePlays_reach (fun _ => false) false
    { s with shared := s.shared.set false sampleMove.name (some 5) }
  obtain ⟨hprogram', hhands'⟩ := hrest false (by decide)
  dsimp only at hdone hleft
  rw [hprogram', hhands', hshared] at hdone hleft
  have hhands := congrArg Prod.fst hleft
  dsimp only at hhands
  obtain ⟨r, hr⟩ : ∃ r, ended (t.program false) = some r := Option.isSome_iff_exists.mp (by rw [hdone]; decide)
  obtain ⟨d, hd⟩ : ∃ d, (t.hands false).claim = some (d, 5) := by
    rw [hhands]
    exact ⟨_, rfl⟩
  refine ⟨t, r, d, (hs.tail (.others hforeign)).trans ht, ?_, eq_done_of_ended hr, ?_, hd⟩
  · rw [(hsame true (by decide)).1]
    exact hat
  · have hrc : (ended (t.program false)).map MoveResult.rc = some 7 := by
      rw [hdone]
      decide
    rw [hr] at hrc
    exact Option.some.inj hrc

theorem message_survives_sample : ∃ t r d, SampleReach sampleSystem t ∧
    pending (t.program true) = some .unlinkClaimed ∧ t.program false = .done r ∧ r.rc = 7 ∧
    (t.hands false).claim = some (d, 5) ∧ (Public sampleBytes t.shared [72, 58, 10] ∨
      ∃ i d j, (t.hands i).claim = some (d, j) ∧ sampleBytes j = [72, 58, 10] ∧
        ∀ r, t.program i = .done r → r.recovery.source = some (recoveryPath (sampleCall i).input d)) := by
  obtain ⟨t, r, d, hreach, hat, hdone, hrc, hclaim⟩ := sampleSystem_contended
  exact ⟨t, r, d, hreach, hat, hdone, hrc, hclaim, message_survives sampleBytes sampleCall sampleOthers [72, 58, 10]
    (fun _ _ h => h) sampleSystem t sampleSystem_atStart sampleSystem_public hreach⟩

/-- A move that is alone, and one that takes the entry of another client. -/
theorem move_ended_sample :
    (∃ t r, SampleReach sampleSystem t ∧ t.program true = .done r ∧ r.rc = 0 ∧
      MoveEnded sampleBytes (sampleCall true) r (t.hands true)) ∧
    ∃ t r d, SampleReach sampleSystem t ∧ t.program false = .done r ∧ r.rc = 7 ∧
      (t.hands false).claim = some (d, 5) ∧ MoveEnded sampleBytes (sampleCall false) r (t.hands false) := by
  constructor
  · obtain ⟨t, hreach, hprogram, -, -⟩ := samplePlays_reach (fun _ => false) true sampleSystem
    obtain ⟨r, hr⟩ : ∃ r, ended (t.program true) = some r :=
      Option.isSome_iff_exists.mp (by rw [hprogram]; decide)
    have hrc : (ended (t.program true)).map MoveResult.rc = some 0 := by
      rw [hprogram]
      decide
    rw [hr] at hrc
    have hdone := eq_done_of_ended hr
    exact ⟨t, r, hreach, hdone, Option.some.inj hrc, move_ended sampleBytes sampleCall sampleOthers sampleSystem t
      sampleSystem_atStart hreach true r hdone⟩
  · obtain ⟨t, r, d, hreach, -, hdone, hrc, hclaim⟩ := sampleSystem_contended
    exact ⟨t, r, d, hreach, hdone, hrc, hclaim, move_ended sampleBytes sampleCall sampleOthers sampleSystem t
      sampleSystem_atStart hreach false r hdone⟩

/-- The claiming rename takes the source name, and the claim goes behind the published copy. -/
theorem move_spares_sample :
    (∃ t d y, SampleReach sampleSystem t ∧ pending (t.program true) = some (.claimSource d) ∧
      t.shared.entry false sampleMove.name = some 1 ∧ y.claim = some (d, 1) ∧
      StepSpares sampleBytes (sampleCall true) (t.hands true) y t.shared
        (t.shared.set false sampleMove.name none)) ∧
    ∃ t d n y, SampleReach sampleSystem t ∧ pending (t.program true) = some .unlinkClaimed ∧
      (t.hands true).claim = some (d, 1) ∧ (t.hands true).linked = some (n, 2) ∧
      t.shared.entry true n = some 2 ∧ y.claim = none ∧
      StepSpares sampleBytes (sampleCall true) (t.hands true) y t.shared t.shared := by
  constructor
  · obtain ⟨t, hreach, hprogram, hstate, -⟩ :=
      samplePlays_reach (fun c => c matches .claimSource _) true sampleSystem
    obtain ⟨d, hd⟩ : ∃ d, pending (t.program true) = some (.claimSource d) := by
      rw [hprogram]
      exact ⟨_, rfl⟩
    obtain ⟨k, hk⟩ := exists_of_pending hd
    have hname : t.shared.entry false sampleMove.name = some 1 := by
      rw [show t.shared = _ from congrArg Prod.snd hstate]
      decide
    exact ⟨t, d, _, hreach, hd, hname, rfl, move_spares sampleBytes sampleCall sampleOthers sampleSystem t
      sampleSystem_atStart hreach true _ k hk true _ _ (.claims hname)⟩
  · obtain ⟨t, hreach, hprogram, hstate, -⟩ :=
      samplePlays_reach (fun c => c matches .unlinkClaimed) true sampleSystem
    have hat : pending (t.program true) = some .unlinkClaimed := by
      rw [hprogram]
      decide
    obtain ⟨k, hk⟩ := exists_of_pending hat
    have hhands := congrArg Prod.fst hstate
    dsimp only at hhands
    obtain ⟨d, hd⟩ : ∃ d, (t.hands true).claim = some (d, 1) := by
      rw [hhands]
      exact ⟨_, rfl⟩
    have hlinked : (t.hands true).linked = some ([120, 58, 50, 44, 83], 2) := by
      rw [hhands]
      decide
    have hentry : t.shared.entry true [120, 58, 50, 44, 83] = some 2 := by
      rw [show t.shared = _ from congrArg Prod.snd hstate]
      decide
    exact ⟨t, d, _, _, hreach, hat, hd, hlinked, hentry, rfl, move_spares sampleBytes sampleCall sampleOthers
      sampleSystem t sampleSystem_atStart hreach true _ k hk true _ _ .drops⟩

end JaroFilter
