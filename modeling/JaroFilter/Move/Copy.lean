import JaroFilter.Sha256

/-!
# The copy of a message (`storage.c:231-300`)

`copy_message` with its short reads and writes, its interrupted calls and the
digests it keeps on the way. A run that is cut off is what a kill leaves.
-/

namespace JaroFilter

open Lib

/-- What `pread` or `write` answers: `EINTR`, another error, or up to `n` bytes. -/
inductive IoAnswer where
  | interrupted
  | failed
  | moved (n : ℕ)
  deriving DecidableEq, Repr

/-- The answers of the calls and of `stopped`, by the number of calls before them. -/
structure CopyCalls where
  stopped : ℕ → Bool
  answer : ℕ → IoAnswer

/-- How a copy ends; `running` is a run cut off. -/
inductive CopyEnd where
  | done
  | failed (detail : Bytes)
  | running
  deriving DecidableEq, Repr

/-- `COPY_CHUNK`. -/
def copyChunk : ℕ := 65536

/-- `pread`: nothing only at the end of the file. -/
def pread (file : Bytes) (position want n : ℕ) : Bytes := (file.drop position).take (min (max n 1) want)

/-- The locals of `copy_message`, with the bytes of the staged file. -/
structure CopyState where
  stage : Bytes := []
  hash : Sha256 := sha256Init
  headers : Sha256 := sha256Init
  position : ℕ := 0
  asked : ℕ := 0

/-- The inner loop: `left` is what is still to be written. -/
def writeAll (e : CopyCalls) : ℕ → Bytes → CopyState → CopyEnd × CopyState
  | 0, _, s => (.running, s)
  | fuel + 1, left, s =>
    if left = [] then (.done, s)
    else if e.stopped s.asked then (.failed (cstr "E_INTERRUPTED"), s)
    else match e.answer s.asked with
      | .interrupted => writeAll e fuel left { s with asked := s.asked + 1 }
      | .failed => (.failed (cstr "E_COPY_WRITE"), { s with asked := s.asked + 1 })
      | .moved n =>
        if min n left.length = 0 then (.failed (cstr "E_COPY_WRITE"), { s with asked := s.asked + 1 })
        else writeAll e fuel (left.drop n) { s with stage := s.stage ++ left.take n, asked := s.asked + 1 }

/-- What one read adds to the two digests. -/
def CopyState.took (s : CopyState) (headerSize : ℕ) (bytes : Bytes) : CopyState :=
  { s with
    hash := sha256Update s.hash bytes
    headers := if s.position < headerSize then sha256Update s.headers (bytes.take (headerSize - s.position))
      else s.headers
    asked := s.asked + 1 }

/-- The outer loop (`storage.c:238-267`). -/
def copyLoop (e : CopyCalls) (source : Bytes) (size headerSize : ℕ) : ℕ → CopyState → CopyEnd × CopyState
  | 0, s => (.running, s)
  | fuel + 1, s =>
    if s.position < size then
      if e.stopped s.asked then (.failed (cstr "E_INTERRUPTED"), s)
      else match e.answer s.asked with
        | .interrupted => copyLoop e source size headerSize fuel { s with asked := s.asked + 1 }
        | .failed => (.failed (cstr "E_COPY_READ"), { s with asked := s.asked + 1 })
        | .moved n =>
          let bytes := pread source s.position (min (size - s.position) copyChunk) n
          if bytes = [] then (.failed (cstr "E_SOURCE_CHANGED"), { s with asked := s.asked + 1 })
          else
            let r := writeAll e fuel bytes (s.took headerSize bytes)
            if r.1 = .done then
              copyLoop e source size headerSize fuel { r.2 with position := r.2.position + bytes.length }
            else r
    else (.done, s)

/-- The locals of a loop that only reads. -/
structure ReadBack where
  hash : Sha256 := sha256Init
  position : ℕ := 0
  asked : ℕ := 0

/-- The reading loop of `source_digest` and of the verification: to the end of
the file, at most `size` bytes. -/
def readLoop (e : CopyCalls) (file : Bytes) (size : ℕ) (failure : Bytes) : ℕ → ReadBack → CopyEnd × ReadBack
  | 0, s => (.running, s)
  | fuel + 1, s =>
    if e.stopped s.asked then (.failed (cstr "E_INTERRUPTED"), s)
    else match e.answer s.asked with
      | .interrupted => readLoop e file size failure fuel { s with asked := s.asked + 1 }
      | .failed => (.failed failure, { s with asked := s.asked + 1 })
      | .moved n =>
        let bytes := pread file s.position copyChunk n
        if bytes = [] then (.done, { s with asked := s.asked + 1 })
        else if size - s.position < bytes.length then (.failed failure, { s with asked := s.asked + 1 })
        else readLoop e file size failure fuel
          ⟨sha256Update s.hash bytes, s.position + bytes.length, s.asked + 1⟩

/-- The result of `copy_message`: how it ends, the staged bytes and `copied`. -/
structure CopyResult where
  ends : CopyEnd
  stage : Bytes
  copied : Bytes := []

/-- `copy_message` (`storage.c:231`). -/
def copyMessage (e : CopyCalls) (fuel : ℕ) (source : Bytes) (size headerSize : ℕ) (headerDigest : Bytes) :
    CopyResult :=
  match copyLoop e source size headerSize fuel {} with
  | (.done, s) =>
    if sha256Hex s.headers ≠ headerDigest then ⟨.failed (cstr "E_SOURCE_CHANGED"), s.stage, []⟩
    else if e.answer s.asked = .failed then
      ⟨.failed (cstr "E_DESTINATION_FSYNC"), s.stage, sha256Hex s.hash⟩
    else
      match readLoop e s.stage size (cstr "E_COPY_VERIFY") fuel { asked := s.asked + 1 } with
      | (.done, r) =>
        if r.position ≠ size ∨ sha256Hex s.hash ≠ sha256Hex r.hash then
          ⟨.failed (cstr "E_COPY_VERIFY"), s.stage, sha256Hex s.hash⟩
        else ⟨.done, s.stage, sha256Hex s.hash⟩
      | (ends, _) => ⟨ends, s.stage, sha256Hex s.hash⟩
  | (ends, s) => ⟨ends, s.stage, []⟩

/-! ### Reads -/

theorem pread_length_le (file : Bytes) (position want n : ℕ) : (pread file position want n).length ≤ want := by
  rw [pread, List.length_take]
  omega

/-- A read goes on where the last one ended. -/
theorem take_append_pread (file : Bytes) (position want n : ℕ) :
    file.take position ++ pread file position want n =
      file.take (position + (pread file position want n).length) := by
  have hlength : (pread file position want n).length = min (min (max n 1) want) (file.length - position) := by
    rw [pread, List.length_take, List.length_drop]
  rw [List.take_add, hlength]
  congr 1
  rw [pread]
  conv_lhs => rw [← List.take_length (l := file.drop position), List.take_take, List.length_drop]

theorem pread_eq_nil {file : Bytes} {position want n : ℕ} (hw : 0 < want)
    (h : pread file position want n = []) : file.length ≤ position := by
  have hlength : (pread file position want n).length = 0 := by rw [h, List.length_nil]
  rw [pread, List.length_take, List.length_drop] at hlength
  omega

/-! ### The copy -/

/-- What the outer loop has done when it reads again. -/
structure Copied (source : Bytes) (size headerSize : ℕ) (s : CopyState) : Prop where
  position : s.position ≤ size
  within : s.position ≤ source.length
  stage : s.stage = source.take s.position
  hash : s.hash = sha256Update sha256Init (source.take s.position)
  headers : s.headers = sha256Update sha256Init (source.take (min s.position headerSize))

/-- The inner loop only appends, and everything once it is done. -/
theorem writeAll_appends (e : CopyCalls) (fuel : ℕ) (left : Bytes) (s : CopyState) :
    ∃ written rest, left = written ++ rest ∧
      (writeAll e fuel left s).2 = { s with
        stage := s.stage ++ written
        asked := (writeAll e fuel left s).2.asked } ∧
      ((writeAll e fuel left s).1 = .done → rest = []) := by
  induction fuel generalizing left s with
  | zero => exact ⟨[], left, rfl, by simp [writeAll], fun h => by cases h⟩
  | succ fuel ih =>
    rw [writeAll]
    split
    · rename_i hnil
      exact ⟨[], [], by simp [hnil], by simp, fun _ => rfl⟩
    split
    · exact ⟨[], left, rfl, by simp, fun h => by cases h⟩
    split
    · exact ih left _
    · exact ⟨[], left, rfl, by simp, fun h => by cases h⟩
    · rename_i n _
      split
      · exact ⟨[], left, rfl, by simp, fun h => by cases h⟩
      · obtain ⟨written, rest, hleft, hstate, hdone⟩ := ih (left.drop n)
          { s with stage := s.stage ++ left.take n, asked := s.asked + 1 }
        refine ⟨left.take n ++ written, rest, ?_, ?_, hdone⟩
        · rw [List.append_assoc, ← hleft, List.take_append_drop]
        · rw [hstate]
          simp only [List.append_assoc]

/-- One turn of the outer loop. -/
theorem Copied.turn {source : Bytes} {size headerSize : ℕ} {s : CopyState} (h : Copied source size headerSize s)
    (n asked : ℕ) :
    let bytes := pread source s.position (min (size - s.position) copyChunk) n
    Copied source size headerSize { s.took headerSize bytes with
      stage := s.stage ++ bytes
      position := s.position + bytes.length
      asked } := by
  intro bytes
  have hlength : bytes.length ≤ size - s.position :=
    (pread_length_le source s.position _ n).trans (min_le_left _ _)
  have htake : source.take s.position ++ bytes = source.take (s.position + bytes.length) :=
    take_append_pread source s.position _ n
  have hposition : s.position + bytes.length ≤ source.length := by
    have hboth : (source.take s.position ++ bytes).length = (source.take (s.position + bytes.length)).length := by
      rw [htake]
    rw [List.length_append, List.length_take, List.length_take, min_eq_left h.within] at hboth
    omega
  refine ⟨by have := h.position; simp only; omega, hposition, ?_, ?_, ?_⟩
  · show s.stage ++ bytes = _
    rw [h.stage, htake]
  · show sha256Update s.hash bytes = _
    rw [h.hash, ← sha256Update_append _ _ _ sha256Init_ready, htake]
  · show (if s.position < headerSize then sha256Update s.headers (bytes.take (headerSize - s.position))
      else s.headers) = sha256Update sha256Init (source.take (min (s.position + bytes.length) headerSize))
    split
    · -- The header ends in these bytes or behind them.
      rename_i hlt
      rw [h.headers, ← sha256Update_append _ _ _ sha256Init_ready, min_eq_left hlt.le]
      have hheader : (source.take s.position ++ bytes).take headerSize =
          source.take s.position ++ bytes.take (headerSize - s.position) := by
        rw [List.take_append, List.length_take, min_eq_left h.within,
          List.take_of_length_le (by rw [List.length_take]; omega)]
      rw [← hheader, htake, List.take_take, min_comm]
    · rename_i hge
      rw [h.headers, min_eq_right (by omega), min_eq_right (by omega)]

/-- The staged bytes are a prefix of the source's at every moment, and the loop
ends with as many as expected. -/
theorem copyLoop_copied (e : CopyCalls) (source : Bytes) (size headerSize fuel : ℕ) {s : CopyState}
    (h : Copied source size headerSize s) :
    (copyLoop e source size headerSize fuel s).2.stage <+: source ∧
      ((copyLoop e source size headerSize fuel s).1 = .done →
        Copied source size headerSize (copyLoop e source size headerSize fuel s).2 ∧
        (copyLoop e source size headerSize fuel s).2.position = size) := by
  have hpiece : ∀ t : CopyState, t.stage = s.stage → t.stage <+: source := fun t ht => by
    rw [ht, h.stage]
    exact List.take_prefix _ _
  induction fuel generalizing s with
  | zero => exact ⟨hpiece s rfl, fun hd => by cases hd⟩
  | succ fuel ih =>
    rw [copyLoop]
    split
    · split
      · exact ⟨hpiece s rfl, fun hd => by cases hd⟩
      split
      · exact ih ⟨h.position, h.within, h.stage, h.hash, h.headers⟩ hpiece
      · exact ⟨hpiece _ rfl, fun hd => by cases hd⟩
      · rename_i n _
        dsimp only
        split
        · exact ⟨hpiece _ rfl, fun hd => by cases hd⟩
        · generalize hbytes : pread source s.position (min (size - s.position) copyChunk) n = bytes
          obtain ⟨written, rest, hleft, hstate, hdone⟩ := writeAll_appends e fuel bytes (s.took headerSize bytes)
          have hturn := fun asked => hbytes ▸ h.turn n asked
          split
          · rename_i hd
            obtain rfl := hdone hd
            rw [List.append_nil] at hleft
            subst hleft
            have hnext : Copied source size headerSize { (writeAll e fuel bytes (s.took headerSize bytes)).2 with
                position := (writeAll e fuel bytes (s.took headerSize bytes)).2.position + bytes.length } := by
              rw [hstate]
              exact hturn _
            refine ih hnext fun t ht => ?_
            rw [ht, hnext.stage]
            exact List.take_prefix _ _
          · rename_i hd
            refine ⟨?_, fun h => (hd h).elim⟩
            rw [hstate]
            have hall : s.stage ++ bytes = source.take (s.position + bytes.length) := (hturn 0).stage
            have hparts : s.stage ++ written ++ rest <+: source := by
              rw [List.append_assoc, ← hleft, hall]
              exact List.take_prefix _ _
            exact (List.prefix_append _ rest).trans hparts
    · rename_i hend
      exact ⟨hpiece s rfl, fun _ => ⟨h, le_antisymm h.position (not_lt.mp hend)⟩⟩

/-! ### Reading back -/

/-- A reading loop that is done has read the file to its end. -/
theorem readLoop_done (e : CopyCalls) (file : Bytes) (size : ℕ) (failure : Bytes) (fuel : ℕ) {s : ReadBack}
    (hp : s.position ≤ file.length) (hh : s.hash = sha256Update sha256Init (file.take s.position))
    (hd : (readLoop e file size failure fuel s).1 = .done) :
    (readLoop e file size failure fuel s).2.position = file.length ∧
      (readLoop e file size failure fuel s).2.hash = sha256Update sha256Init file := by
  induction fuel generalizing s with
  | zero => cases hd
  | succ fuel ih =>
    rw [readLoop] at hd ⊢
    split at hd
    · cases hd
    rename_i hrun
    rw [if_neg hrun]
    split at hd
    · exact ih hp hh hd
    · cases hd
    · rename_i n _
      dsimp only at hd ⊢
      split at hd
      · rename_i hnil
        rw [if_pos hnil]
        have hend := pread_eq_nil (by decide) hnil
        refine ⟨le_antisymm hp hend, ?_⟩
        show s.hash = _
        rw [hh, List.take_of_length_le hend]
      · rename_i hnil
        rw [if_neg hnil]
        split at hd
        · cases hd
        rename_i hfits
        rw [if_neg hfits]
        have htake := take_append_pread file s.position copyChunk n
        refine ih ?_ ?_ hd
        · have hlength := congrArg List.length htake
          rw [List.length_append, List.length_take, List.length_take, min_eq_left hp] at hlength
          simp only
          omega
        · simp only
          rw [hh, ← sha256Update_append _ _ _ sha256Init_ready, htake]

/-! ### The result -/

/-- A copy is exact or it is refused: whatever the calls answer and wherever the
run is cut off, the staged bytes are a prefix of the source's; a copy that is
done has the expected size, the header that was classified and its own digest. -/
theorem copyMessage_exact (e : CopyCalls) (fuel : ℕ) (source : Bytes) (size headerSize : ℕ)
    (headerDigest : Bytes) :
    (copyMessage e fuel source size headerSize headerDigest).stage <+: source ∧
    ((copyMessage e fuel source size headerSize headerDigest).ends = .done →
      size ≤ source.length ∧
      (copyMessage e fuel source size headerSize headerDigest).stage = source.take size ∧
      sha256Hex (sha256Update sha256Init ((source.take size).take headerSize)) = headerDigest ∧
      (copyMessage e fuel source size headerSize headerDigest).copied =
        sha256Hex (sha256Update sha256Init (source.take size))) := by
  have hstart : Copied source size headerSize {} :=
    ⟨Nat.zero_le _, Nat.zero_le _, rfl, rfl, by rw [Nat.zero_min]; rfl⟩
  obtain ⟨hpiece, hcopied⟩ := copyLoop_copied e source size headerSize fuel hstart
  rw [copyMessage]
  generalize copyLoop e source size headerSize fuel {} = r at hpiece hcopied ⊢
  obtain ⟨ends, s⟩ := r
  cases ends with
  | failed detail => exact ⟨hpiece, fun h => by cases h⟩
  | running => exact ⟨hpiece, fun h => by cases h⟩
  | done =>
    obtain ⟨h, hposition⟩ := hcopied rfl
    dsimp only at hpiece h hposition ⊢
    split
    · exact ⟨hpiece, fun h => by cases h⟩
    rename_i hheaders
    split
    · exact ⟨hpiece, fun h => by cases h⟩
    split
    · split
      · exact ⟨hpiece, fun h => by cases h⟩
      · refine ⟨hpiece, fun _ => ⟨hposition ▸ h.within, ?_, ?_, ?_⟩⟩
        · rw [← hposition]
          exact h.stage
        · rw [List.take_take, min_comm, ← hposition, ← h.headers]
          exact not_not.mp hheaders
        · rw [← hposition, ← h.hash]
    · rename_i ends r hends _
      exact ⟨hpiece, fun h => (hends h).elim⟩

/-- Calls that are not stopped and always move something. -/
structure Moving (e : CopyCalls) : Prop where
  running : ∀ n, e.stopped n = false
  moves : ∀ n, ∃ k, e.answer n = .moved (k + 1)

theorem writeAll_moving {e : CopyCalls} (he : Moving e) (fuel : ℕ) (left : Bytes) (s : CopyState)
    (hf : left.length < fuel) : (writeAll e fuel left s).1 = .done := by
  induction fuel generalizing left s with
  | zero => omega
  | succ fuel ih =>
    rw [writeAll]
    split
    · rfl
    rename_i hne
    have hpos : 0 < left.length := List.length_pos_iff.mpr hne
    obtain ⟨k, hk⟩ := he.moves s.asked
    rw [he.running, if_neg Bool.false_ne_true, hk]
    dsimp only
    rw [if_neg (by omega)]
    exact ih _ _ (by rw [List.length_drop]; omega)

theorem copyLoop_moving {e : CopyCalls} (he : Moving e) (source : Bytes) (headerSize fuel : ℕ) {s : CopyState}
    (h : Copied source source.length headerSize s) (hf : source.length - s.position + 1 < fuel) :
    (copyLoop e source source.length headerSize fuel s).1 = .done := by
  induction fuel generalizing s with
  | zero => omega
  | succ fuel ih =>
    rw [copyLoop]
    split
    · rename_i hlt
      obtain ⟨k, hk⟩ := he.moves s.asked
      rw [he.running, if_neg Bool.false_ne_true, hk]
      dsimp only
      generalize hbytes : pread source s.position (min (source.length - s.position) copyChunk) (k + 1) = bytes
      have hle : bytes.length ≤ source.length - s.position :=
        hbytes ▸ (pread_length_le source s.position _ _).trans (min_le_left _ _)
      have hne : bytes ≠ [] := fun hnil => by
        have hend := pread_eq_nil (lt_min (by omega) (by decide)) (hbytes.trans hnil)
        omega
      rw [if_neg hne]
      have hdone := writeAll_moving he fuel bytes (s.took headerSize bytes) (by omega)
      rw [if_pos hdone]
      obtain ⟨written, rest, hleft, hstate, hrest⟩ := writeAll_appends e fuel bytes (s.took headerSize bytes)
      obtain rfl := hrest hdone
      rw [List.append_nil] at hleft
      subst hleft
      have hpos : 0 < bytes.length := List.length_pos_iff.mpr hne
      apply ih
      · rw [hstate]
        exact hbytes ▸ h.turn (k + 1) _
      · rw [hstate]
        show source.length - (s.position + bytes.length) + 1 < fuel
        omega
    · rfl

theorem readLoop_moving {e : CopyCalls} (he : Moving e) (file failure : Bytes) (fuel : ℕ) {s : ReadBack}
    (hf : file.length - s.position + 1 < fuel) : (readLoop e file file.length failure fuel s).1 = .done := by
  induction fuel generalizing s with
  | zero => omega
  | succ fuel ih =>
    rw [readLoop]
    obtain ⟨k, hk⟩ := he.moves s.asked
    rw [he.running, if_neg Bool.false_ne_true, hk]
    dsimp only
    split
    · rfl
    rename_i hne
    have hpos : 0 < (pread file s.position copyChunk (k + 1)).length := List.length_pos_iff.mpr hne
    have hle : (pread file s.position copyChunk (k + 1)).length ≤ file.length - s.position := by
      rw [pread, List.length_take, List.length_drop]
      exact min_le_right _ _
    rw [if_neg (by omega)]
    apply ih
    show file.length - (s.position + (pread file s.position copyChunk (k + 1)).length) + 1 < fuel
    omega

/-- With such calls the stage takes the whole source. -/
theorem copyMessage_moving {e : CopyCalls} (he : Moving e) (source : Bytes) (headerSize fuel : ℕ)
    (hf : source.length + 1 < fuel) :
    ∃ digest, copyMessage e fuel source source.length headerSize
      (sha256Hex (sha256Update sha256Init (source.take headerSize))) = ⟨.done, source, digest⟩ := by
  have hstart : Copied source source.length headerSize {} :=
    ⟨Nat.zero_le _, Nat.zero_le _, rfl, rfl, by rw [Nat.zero_min]; rfl⟩
  obtain ⟨-, hcopied⟩ := copyLoop_copied e source source.length headerSize fuel hstart
  have hdone := copyLoop_moving he source headerSize fuel hstart (by simpa using hf)
  rw [copyMessage]
  generalize copyLoop e source source.length headerSize fuel {} = r at hcopied hdone ⊢
  obtain ⟨ends, s⟩ := r
  obtain rfl : ends = .done := hdone
  obtain ⟨h, hposition⟩ := hcopied rfl
  dsimp only at h hposition ⊢
  have hstage : s.stage = source := by rw [h.stage, hposition, List.take_length]
  have hheaders : s.headers = sha256Update sha256Init (source.take headerSize) := by
    rw [h.headers, hposition, min_comm, ← List.take_take, List.take_length]
  obtain ⟨k, hk⟩ := he.moves s.asked
  rw [if_neg (not_not.mpr (by rw [hheaders])), if_neg (by rw [hk]; intro hcontra; cases hcontra), hstage]
  have hread := readLoop_moving he source (cstr "E_COPY_VERIFY") fuel (s := { asked := s.asked + 1 })
    (by simpa using hf)
  obtain ⟨hback, hhash⟩ := readLoop_done e source source.length (cstr "E_COPY_VERIFY") fuel
    (s := { asked := s.asked + 1 }) (Nat.zero_le _) (by rfl) hread
  generalize readLoop e source source.length (cstr "E_COPY_VERIFY") fuel { asked := s.asked + 1 } = r
    at hread hback hhash ⊢
  obtain ⟨ends, r⟩ := r
  obtain rfl : ends = .done := hread
  dsimp only at hback hhash ⊢
  refine ⟨sha256Hex s.hash, ?_⟩
  rw [if_neg]
  rw [hback, hhash, h.hash, hposition, List.take_length]
  simp

/-- With calls that move at least a byte each, a source of the expected size and
header is copied, whatever the sizes of the reads and writes. -/
theorem copyMessage_completes {e : CopyCalls} (he : Moving e) (source : Bytes) (headerSize fuel : ℕ)
    (hf : source.length + 1 < fuel) :
    (copyMessage e fuel source source.length headerSize
      (sha256Hex (sha256Update sha256Init (source.take headerSize)))).ends = .done := by
  obtain ⟨digest, hcopy⟩ := copyMessage_moving he source headerSize fuel hf
  rw [hcopy]

/-- Every call moves one byte. -/
def bytewise : CopyCalls where
  stopped _ := false
  answer _ := .moved 1

theorem moving_bytewise : Moving bytewise := ⟨fun _ => rfl, fun _ => ⟨0, rfl⟩⟩

theorem copyMessage_completes_bytewise : Moving bytewise ∧ (copyMessage bytewise 4 [72, 58] 2 1
    (sha256Hex (sha256Update sha256Init [72]))).ends = .done :=
  ⟨moving_bytewise, copyMessage_completes moving_bytewise [72, 58] 1 4 (by decide)⟩

end JaroFilter
