import JaroFilter.Batch.Records
import JaroFilter.Move.Storage

/-!
# The detail of a move

Every end of `jf_storage_move` names an error code, whatever its calls return.
-/

namespace JaroFilter

open Lib

/-! ### The detail of a move -/

section Details

variable {σ κ α β : Type}

/-- Every result of the program has the property, whatever its calls return, as long as what
it looks at is as `I` says. -/
def Yields (I : σ → Prop) (P : α → Prop) : Prog σ κ α → Prop
  | .done a => P a
  | .look k => ∀ s, I s → Yields I P (k s)
  | .call _ k => ∀ ok, Yields I P (k ok)

theorem yields_bind {I : σ → Prop} {Q : α → Prop} {P : β → Prop} {p : Prog σ κ α} {f : α → Prog σ κ β}
    (h : Yields I Q p) (hf : ∀ a, Q a → Yields I P (f a)) : Yields I P (Prog.bind p f) := by
  induction p with
  | done a => exact hf a h
  | look k ih => exact fun s hs => ih s (h s hs)
  | call c k ih => exact fun ok => ih ok (h ok)

theorem yields_any {I : σ → Prop} (p : Prog σ κ α) : Yields I (fun _ => True) p := by
  induction p with
  | done a => exact trivial
  | look k ih => exact fun s _ => ih s
  | call c k ih => exact fun ok => ih ok

theorem Yields.run {I : σ → Prop} {P : α → Prop} (M : Prog.Machine σ κ) (hI : ∀ c s, I s → I (M.exec c s).2)
    {p : Prog σ κ α} (h : Yields I P p) {s : σ} (hs : I s) : P (Prog.run M p s).1 := by
  induction p generalizing s with
  | done a => exact h
  | look k ih => exact ih s (h s hs) hs
  | call c k ih => exact ih _ (h _) (hI c s hs)

end Details

/-- What `copy_message` leaves in the detail. -/
def CopyCoded (s : MoveDisk) : Prop := isErrorCode s.copyDetail = true

theorem copyCoded_exec (c : MoveSys) (s : MoveDisk) (h : CopyCoded s) : CopyCoded (moveMachine.exec c s).2 := by
  simp only [moveMachine]
  split
  · cases c <;> exact h
  · exact h

/-- The locals name an error. -/
def Move.Coded (m : Move) : Prop := isErrorCode m.detail = true

/-- The result names an error. -/
def MoveResult.Coded (r : MoveResult) : Prop := isErrorCode r.detail = true

theorem finish_coded {m : Move} (h : m.Coded) : Yields CopyCoded MoveResult.Coded (finish m) := by
  have hclose : ∀ (isOpen : Bool) (m : Move), m.Coded → Yields CopyCoded Move.Coded (finishClose isOpen m) := by
    intro isOpen m h
    rw [finishClose]
    split
    · exact h
    · apply yields_bind (yields_any _)
      intro ok _
      show Move.Coded _
      split
      · exact (by decide : isErrorCode (cstr "E_DESTINATION_IO") = true)
      · exact h
  have hclaim : ∀ (m : Move) (r : Recovery), m.Coded →
      Yields CopyCoded (fun x => x.1.Coded) (finishClaim m r) := by
    intro m r h
    rw [finishClaim]
    split
    · exact h
    · apply yields_bind (yields_any _)
      intro ok _
      split
      · apply yields_bind (yields_any _)
        intro synced _
        show Move.Coded _
        split
        · exact h
        · exact (by decide : isErrorCode (cstr "E_SOURCE_FSYNC") = true)
      · apply yields_bind (yields_any _)
        intro _ _
        apply yields_bind (yields_any _)
        intro _ _
        exact (by decide : isErrorCode (cstr "E_SOURCE_RECOVERY") = true)
  have hstage : ∀ m : Move, m.Coded → Yields CopyCoded Move.Coded (finishStage m) := by
    intro m h
    rw [finishStage]
    split
    · exact h
    · apply yields_bind (yields_any _)
      intro ok _
      split
      · exact h
      · apply yields_bind (yields_any _)
        intro _ _
        apply yields_bind (yields_any _)
        intro _ _
        show Move.Coded _
        split
        · exact (by decide : isErrorCode (cstr "E_STAGE_CLEANUP") = true)
        · exact h
  have hstageDirectory : ∀ m : Move, m.Coded → Yields CopyCoded Move.Coded (finishStageDirectory m) := by
    intro m h
    rw [finishStageDirectory]
    split
    · exact h
    · apply yields_bind (yields_any _)
      intro x _
      show Move.Coded _
      split
      · exact (by decide : isErrorCode (cstr "E_STAGE_CLEANUP") = true)
      · exact h
  have hclaimDirectory : ∀ m : Move, m.Coded → Yields CopyCoded Move.Coded (finishClaimDirectory m) := by
    intro m h
    rw [finishClaimDirectory]
    split
    · exact h
    · apply yields_bind (yields_any _)
      intro x _
      show Move.Coded _
      split
      · exact (by decide : isErrorCode (cstr "E_SOURCE_FSYNC") = true)
      · exact h
  apply yields_bind (hclose _ _ h)
  intro m h
  apply yields_bind (hclose _ _ h)
  intro m h
  apply yields_bind (hclaim _ _ h)
  intro x h
  apply yields_bind (hstage _ h)
  intro m h
  apply yields_bind (hstageDirectory _ h)
  intro m h
  apply yields_bind (hclaimDirectory _ h)
  intro m h
  exact h

theorem guardWith_coded {p : MoveProg Bool} {m : Move} {detail : String} {k : MoveProg MoveResult}
    (hd : isErrorCode (cstr detail) = true) (hk : Yields CopyCoded MoveResult.Coded k) :
    Yields CopyCoded MoveResult.Coded (guardWith p m detail k) := by
  apply yields_bind (yields_any _)
  intro ok _
  split
  · exact hk
  · exact finish_coded hd

theorem guardPlain_coded {p : MoveProg Bool} {m : Move} {k : MoveProg MoveResult} (hm : m.Coded)
    (hk : Yields CopyCoded MoveResult.Coded k) : Yields CopyCoded MoveResult.Coded (guardPlain p m k) := by
  apply yields_bind (yields_any _)
  intro ok _
  split
  · exact hk
  · exact finish_coded hm

theorem digest_coded {m : Move} {detail detail' : String} {k : MoveProg MoveResult}
    (hd : isErrorCode (cstr detail) = true) (hd' : isErrorCode (cstr detail') = true)
    (hk : Yields CopyCoded MoveResult.Coded k) :
    Yields CopyCoded MoveResult.Coded (.bind (ask .digest) fun ok => if ok = false then
      .bind (ask .running) fun running => finish (m.detailed (if running then detail else detail'))
      else k) := by
  apply yields_bind (yields_any _)
  intro ok _
  split
  · apply yields_bind (yields_any _)
    intro running _
    apply finish_coded
    show isErrorCode (cstr _) = true
    split
    · exact hd
    · exact hd'
  · exact hk

theorem removeSource_coded {m : Move} (hm : m.Coded) : Yields CopyCoded MoveResult.Coded (removeSource m) := by
  apply guardWith_coded (by decide)
  apply guardWith_coded (by decide)
  apply guardWith_coded (by decide)
  apply guardWith_coded (by decide)
  apply guardWith_coded (by decide)
  apply digest_coded (by decide) (by decide)
  apply guardWith_coded (by decide)
  apply digest_coded (by decide) (by decide)
  apply guardWith_coded (by decide)
  apply guardWith_coded (by decide)
  apply guardWith_coded (by decide)
  apply yields_bind (yields_any _)
  intro x _
  apply finish_coded
  split
  · exact hm
  · exact (by decide : isErrorCode (cstr "E_SOURCE_FSYNC") = true)

theorem claimSource_coded {input : MoveInput} {m : Move} (hm : m.Coded) :
    Yields CopyCoded MoveResult.Coded (claimSource input m) := by
  apply guardWith_coded (by decide)
  apply guardWith_coded (by decide)
  apply yields_bind (yields_any _)
  intro x _
  split
  · exact finish_coded (by decide : isErrorCode (cstr "E_SOURCE_CLAIM") = true)
  · apply guardWith_coded (by decide)
    apply guardWith_coded (by decide)
    apply guardWith_coded (by decide)
    apply guardWith_coded (by decide)
    apply digest_coded (by decide) (by decide)
    apply guardWith_coded (by decide)
    exact removeSource_coded hm

theorem publishLoop_coded {input : MoveInput} {n attempt : ℕ} {m : Move} (hm : m.Coded) :
    Yields CopyCoded (fun x => x.2.Coded) (publishLoop input n attempt m) := by
  induction n generalizing attempt with
  | zero => exact (by decide : isErrorCode (cstr "E_DESTINATION_COLLISION") = true)
  | succ n ih =>
    apply yields_bind (yields_any _)
    intro s _
    split
    · show isErrorCode (cstr _) = true
      split
      · decide
      · decide
    · apply yields_bind (yields_any _)
      intro ok _
      split
      · exact (by decide : isErrorCode (cstr "E_MEMORY") = true)
      · apply yields_bind (yields_any _)
        intro linked _
        split
        · exact hm
        · apply yields_bind (yields_any _)
          intro again _
          split
          · exact ih
          · exact (by decide : isErrorCode (cstr "E_DESTINATION_PUBLISH") = true)

theorem publishCopy_coded {input : MoveInput} {m : Move} (hm : m.Coded) :
    Yields CopyCoded MoveResult.Coded (publishCopy input m) := by
  apply guardWith_coded (by decide)
  apply guardWith_coded (by decide)
  apply guardWith_coded (by decide)
  apply guardWith_coded (by decide)
  apply yields_bind (publishLoop_coded hm)
  intro x hx
  split
  · exact finish_coded hx
  · apply guardWith_coded (by decide)
    apply guardWith_coded (by decide)
    apply guardWith_coded (by decide)
    apply yields_bind (yields_any _)
    intro y _
    split
    · exact finish_coded (by decide : isErrorCode (cstr "E_STAGE_CLEANUP") = true)
    · exact claimSource_coded hx

theorem stageCopy_coded {input : MoveInput} {m : Move} (hm : m.Coded) :
    Yields CopyCoded MoveResult.Coded (stageCopy input m) := by
  apply yields_bind (yields_any _)
  intro x _
  split
  · exact finish_coded hm
  · apply guardWith_coded (by decide)
    apply guardWith_coded (by decide)
    apply guardPlain_coded (by exact hm)
    apply yields_bind (yields_any _)
    intro copied _
    split
    · intro s hs
      exact finish_coded hs
    · apply guardPlain_coded (by exact hm)
      apply guardPlain_coded (by exact hm)
      apply guardWith_coded (by decide)
      exact publishCopy_coded hm

/-- Whatever its calls return, a move leaves a code in its detail. -/
theorem storageMove_coded (input : MoveInput) (sequence : ℕ) :
    Yields CopyCoded MoveResult.Coded (storageMove input sequence) := by
  have hm : ∀ rc, Move.Coded { rc, sequence } := fun _ =>
    (by decide : isErrorCode (cstr "E_DESTINATION_IO") = true)
  apply guardWith_coded (by decide)
  apply guardWith_coded (by decide)
  apply guardPlain_coded (by exact hm _)
  apply guardWith_coded (by decide)
  apply guardPlain_coded (by exact hm _)
  apply guardPlain_coded (by exact hm _)
  apply guardPlain_coded (by exact hm _)
  apply guardPlain_coded (by exact hm _)
  apply guardWith_coded (by decide)
  exact stageCopy_coded (hm _)

theorem moveRun_coded (input : MoveInput) (sequence : ℕ) (answers : ℕ → Bool) (limits : ℕ → NameMax)
    {copyDetail : Bytes} (h : isErrorCode copyDetail = true) :
    isErrorCode (moveRun input sequence answers limits copyDetail).1.detail = true :=
  Yields.run moveMachine copyCoded_exec (storageMove_coded input sequence) h

end JaroFilter
