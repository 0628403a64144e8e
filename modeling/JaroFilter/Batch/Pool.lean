import JaroFilter.Lib.Trace

/-!
# The worker pool (`pool.c`)

Sixteen workers take jobs from an array that the coordinator lends for one
window. Every section under the mutex is one step; between two steps any thread
may come next, a sleeping thread may wake without reason, and the signal thread
may stop the pool at any time.
-/

namespace JaroFilter

open Lib

/-- `JF_POOL_WORKERS`. -/
def poolWorkers : ℕ := 16

instance : NeZero poolWorkers := ⟨Nat.succ_ne_zero 15⟩

abbrev Worker := Fin poolWorkers

/-- Where a worker stands (`pool.c:77-94`). -/
inductive WorkerAt (α : Type) where
  /-- Before `pthread_mutex_lock` at the top of its loop, or woken. -/
  | top
  /-- In `pthread_cond_wait` on `ready`. -/
  | asleep
  /-- In `run`, with job `i` of window `k`. -/
  | running (k i : ℕ) (job : α)
  | exited
  deriving DecidableEq, Repr

def WorkerAt.left {α : Type} : WorkerAt α → Bool
  | .exited => true
  | _ => false

/-- Where the coordinator stands. -/
inductive CoordinatorAt where
  /-- Outside the pool's functions. -/
  | idle
  /-- In `jf_pool_window`, in `pthread_cond_wait` on `settled`. -/
  | asleep
  /-- In `jf_pool_window`, woken. -/
  | awake
  /-- In `jf_pool_finish`, joining. -/
  | joining
  | finished
  deriving DecidableEq, Repr

/-- `struct jf_pool` and its threads. `window` counts the calls of
`jf_pool_window`; `array` is what `jobs` points to. -/
structure Pool (α : Type) where
  workers : Worker → WorkerAt α := fun _ => .top
  coordinator : CoordinatorAt := .idle
  observing : Bool := true
  array : List α := []
  next : ℕ := 0
  count : ℕ := 0
  remaining : ℕ := 0
  stop : Bool := false
  quit : Bool := false
  signal : ℕ := 0
  window : ℕ := 0

inductive PoolEvent (α : Type) where
  /-- `jf_pool_window` was called with the jobs, its `k`-th call. -/
  | began (k : ℕ) (jobs : List α)
  /-- Worker `w` entered `run` with job `i` of window `k`. -/
  | ran (k i : ℕ) (job : α) (w : Worker)
  | settled (k i : ℕ) (job : α) (w : Worker)
  | returned (k : ℕ)
  | joined
  /-- The job array was read outside its bounds or after its window. -/
  | astray
  deriving DecidableEq, Repr

inductive PoolAct (α : Type) where
  /-- A worker at the top takes the mutex. -/
  | enter (w : Worker)
  /-- A worker leaves `run` and takes the mutex. -/
  | settle (w : Worker)
  /-- `jf_pool_stopped` of a running worker, of the coordinator, or the body of
  the signal thread's loop, with the signals it consumes. -/
  | stoppedWorker (w : Worker) (signals : List ℕ)
  | stoppedCoordinator (signals : List ℕ)
  | observe (signals : List ℕ)
  /-- `jf_pool_stop` of a running worker or of the coordinator. -/
  | stopWorker (w : Worker)
  | stopCoordinator
  | begin (jobs : List α)
  /-- The coordinator takes the mutex again in `pthread_cond_wait`. -/
  | check
  | finish
  | join (signals : List ℕ)
  /-- Wake-ups without a signal. -/
  | rouseWorker (w : Worker)
  | rouseCoordinator
  deriving DecidableEq, Repr

namespace Pool

variable {α : Type}

/-- The call of `jf_pool_window` has not returned. -/
def lending (s : Pool α) : Bool := s.coordinator == .asleep || s.coordinator == .awake

/-- `pthread_cond_broadcast` on `ready`. -/
def broadcast (s : Pool α) : Pool α :=
  { s with workers := fun w => match s.workers w with
      | .asleep => .top
      | x => x }

def place (s : Pool α) (w : Worker) (x : WorkerAt α) : Pool α :=
  { s with workers := Function.update s.workers w x }

/-- `observe_signals` (`pool.c:32-43`): at most eight pending signals. -/
def observeSignals (s : Pool α) (signals : List ℕ) : Pool α :=
  match (signals.take 8).getLast? with
  | none => s
  | some signal => { s with signal, stop := true }.broadcast

/-- The claim of a job (`pool.c:84`). -/
def claim (s : Pool α) (w : Worker) : Pool α × List (PoolEvent α) :=
  match s.array[s.next]? with
  | none => ({ s with next := s.next + 1 }, [.astray])
  | some job =>
    ({ s with next := s.next + 1 }.place w (.running (s.window - 1) s.next job),
      [.ran (s.window - 1) s.next job w] ++ if s.lending then [] else [.astray])

/-- The top of the worker's loop (`pool.c:81-85`). -/
def enter (s : Pool α) (w : Worker) : Pool α × List (PoolEvent α) :=
  if s.quit then (s.place w .exited, [])
  else if s.next = s.count then (s.place w .asleep, [])
  else s.claim w

/-- `--p->remaining` on an unsigned counter. -/
def settleCount (n : ℕ) : ℕ := if n = 0 then 2 ^ 64 - 1 else n - 1

/-- `pthread_cond_signal` on `settled`. -/
def signalSettled : CoordinatorAt → CoordinatorAt
  | .asleep => .awake
  | x => x

/-- The end of a job (`pool.c:89-91`). -/
def settle (s : Pool α) (w : Worker) : Pool α :=
  let s := { s with remaining := settleCount s.remaining }.place w .top
  if s.remaining = 0 then { s with coordinator := signalSettled s.coordinator } else s

/-- `jf_pool_window` up to its first wait (`pool.c:154-160`). -/
def beginWindow (s : Pool α) (jobs : List α) : Pool α × List (PoolEvent α) :=
  if jobs.length = 0 then
    ({ s with window := s.window + 1 }, [.began s.window jobs, .returned s.window])
  else
    ({ s with array := jobs, next := 0, count := jobs.length, remaining := jobs.length,
              coordinator := .asleep, window := s.window + 1 }.broadcast, [.began s.window jobs])

/-- The wait loop of `jf_pool_window` (`pool.c:160-161`). -/
def checkWindow (s : Pool α) : Pool α × List (PoolEvent α) :=
  if s.remaining = 0 then ({ s with coordinator := .idle }, [.returned (s.window - 1)])
  else ({ s with coordinator := .asleep }, [])

/-- One step of one thread. -/
def act (s : Pool α) : PoolAct α → Option (Pool α × List (PoolEvent α))
  | .enter w =>
    match s.workers w with
    | .top => some (s.enter w)
    | _ => none
  | .settle w =>
    match s.workers w with
    | .running k i job => some (s.settle w, [.settled k i job w])
    | _ => none
  | .stoppedWorker w signals =>
    match s.workers w with
    | .running _ _ _ => some (s.observeSignals signals, [])
    | _ => none
  | .stoppedCoordinator signals =>
    if s.coordinator = .idle then some (s.observeSignals signals, []) else none
  | .observe signals =>
    if s.observing then some ({ s.observeSignals signals with observing := !s.quit }, []) else none
  | .stopWorker w =>
    match s.workers w with
    | .running _ _ _ => some ({ s with stop := true }.broadcast, [])
    | _ => none
  | .stopCoordinator =>
    if s.coordinator = .idle then some ({ s with stop := true }.broadcast, []) else none
  | .begin jobs => if s.coordinator = .idle then some (s.beginWindow jobs) else none
  | .check => if s.coordinator = .awake then some s.checkWindow else none
  | .finish =>
    if s.coordinator = .idle then some ({ s with quit := true, coordinator := .joining }.broadcast, [])
    else none
  | .join signals =>
    if s.coordinator = .joining ∧ (∀ w, (s.workers w).left = true) ∧ s.observing = false then
      some ({ s.observeSignals signals with coordinator := .finished }, [.joined])
    else none
  | .rouseWorker w =>
    match s.workers w with
    | .asleep => some (s.place w .top, [])
    | _ => none
  | .rouseCoordinator =>
    if s.coordinator = .asleep then some ({ s with coordinator := .awake }, []) else none

end Pool

/-- The pool as `jf_pool_start` leaves it. -/
def pool (α : Type) : Labelled (Pool α) (PoolAct α) (PoolEvent α) := ⟨{}, Pool.act⟩

/-! ### The runs of a window -/

section Windows

variable {α : Type}

/-- The job a worker runs, with its index. -/
def WorkerAt.task (w : Worker) : WorkerAt α → Option (ℕ × α × Worker)
  | .running _ i job => some (i, job, w)
  | _ => none

/-- The jobs being run. -/
def Pool.busy (s : Pool α) : List (ℕ × α × Worker) :=
  (List.finRange poolWorkers).filterMap fun w => (s.workers w).task w

def PoolEvent.ran? (k : ℕ) : PoolEvent α → Option (ℕ × α × Worker)
  | .ran k' i job w => if k' = k then some (i, job, w) else none
  | _ => none

def PoolEvent.settled? (k : ℕ) : PoolEvent α → Option (ℕ × α × Worker)
  | .settled k' i job w => if k' = k then some (i, job, w) else none
  | _ => none

/-- The runs of window `k` that were entered, in order. -/
def rans (k : ℕ) (tr : List (PoolEvent α)) : List (ℕ × α × Worker) := tr.filterMap (PoolEvent.ran? k)

/-- The runs of window `k` that were left. -/
def settles (k : ℕ) (tr : List (PoolEvent α)) : List (ℕ × α × Worker) :=
  tr.filterMap (PoolEvent.settled? k)

/-- What ties a run of the pool to the state it leaves. -/
structure PoolInv (tr : List (PoolEvent α)) (s : Pool α) : Prop where
  bound : s.next ≤ s.count
  array : s.count = s.array.length
  tally : s.remaining = s.count - s.next + s.busy.length
  rest : s.lending = false → s.next = s.count ∧ s.busy = []
  lent : s.lending = true → 0 < s.window
  running : ∀ w k i job, s.workers w = .running k i job → k + 1 = s.window
  began : ∀ k jobs, .began k jobs ∈ tr → k < s.window
  current : s.lending = true → ∀ k jobs, .began k jobs ∈ tr → k + 1 = s.window → jobs = s.array
  returned : ∀ k, .returned k ∈ tr → k < s.window ∧ (s.lending = true → k + 1 ≠ s.window)
  order : ∀ k jobs, .began k jobs ∈ tr → (rans k tr).map (fun x => (x.2.1, x.1)) =
    jobs.zipIdx.take (if s.lending = true ∧ k + 1 = s.window then s.next else jobs.length)
  settled : ∀ k, (rans k tr).Perm (settles k tr ++ if k + 1 = s.window then s.busy else [])
  fresh : ∀ k, s.window ≤ k → rans k tr = []
  sane : .astray ∉ tr

theorem task_update (f : Worker → WorkerAt α) (w : Worker) (x : WorkerAt α) :
    (fun v => (Function.update f w x v).task v) =
      Function.update (fun v => (f v).task v) w (x.task w) := by
  funext v
  by_cases hv : v = w
  · subst hv
    simp
  · simp [Function.update_of_ne hv]

/-- A step that runs no job and lends no array. -/
structure Quiet (s s' : Pool α) : Prop where
  next : s'.next = s.next
  count : s'.count = s.count
  remaining : s'.remaining = s.remaining
  array : s'.array = s.array
  window : s'.window = s.window
  lending : s'.lending = s.lending
  running : ∀ w k i job, s'.workers w = .running k i job ↔ s.workers w = .running k i job

theorem Quiet.busy {s s' : Pool α} (h : Quiet s s') : s'.busy = s.busy := by
  refine List.filterMap_congr fun w _ => ?_
  cases hw : s.workers w with
  | running k i job => rw [(h.running w k i job).mpr hw]
  | _ =>
    cases hw' : s'.workers w with
    | running k i job =>
      rw [(h.running w k i job).mp hw'] at hw
      cases hw
    | _ => rfl

theorem PoolInv.quiet {tr : List (PoolEvent α)} {s s' : Pool α} (h : PoolInv tr s) (hq : Quiet s s') :
    PoolInv tr s' := by
  refine ⟨?_, ?_, ?_, ?_, ?_, ?_, ?_, ?_, ?_, ?_, ?_, ?_, h.sane⟩
  · rw [hq.next, hq.count]; exact h.bound
  · rw [hq.count, hq.array]; exact h.array
  · rw [hq.remaining, hq.count, hq.next, hq.busy]; exact h.tally
  · rw [hq.lending, hq.next, hq.count, hq.busy]; exact h.rest
  · rw [hq.lending, hq.window]; exact h.lent
  · intro w k i job hw
    rw [hq.window]
    exact h.running w k i job ((hq.running w k i job).mp hw)
  · rw [hq.window]; exact h.began
  · rw [hq.lending, hq.window, hq.array]; exact h.current
  · rw [hq.lending, hq.window]; exact h.returned
  · rw [hq.lending, hq.window, hq.next]; exact h.order
  · rw [hq.window, hq.busy]; exact h.settled
  · rw [hq.window]; exact h.fresh

/-- `PoolEvent.joined` says nothing about windows. -/
theorem PoolInv.joined {tr : List (PoolEvent α)} {s : Pool α} (h : PoolInv tr s) :
    PoolInv (tr ++ [.joined]) s := by
  have hrans : ∀ k, rans k (tr ++ [.joined]) = rans k tr := fun k => by
    simp [rans, PoolEvent.ran?]
  have hsettles : ∀ k, settles k (tr ++ [.joined]) = settles k tr := fun k => by
    simp [settles, PoolEvent.settled?]
  refine ⟨h.bound, h.array, h.tally, h.rest, h.lent, h.running, ?_, ?_, ?_, ?_, ?_, ?_, ?_⟩
  · simpa using h.began
  · simpa using h.current
  · simpa using h.returned
  · simpa [hrans] using h.order
  · simpa [hrans, hsettles] using h.settled
  · simpa [hrans] using h.fresh
  · simpa using h.sane

theorem Quiet.refl (s : Pool α) : Quiet s s :=
  ⟨rfl, rfl, rfl, rfl, rfl, rfl, fun _ _ _ _ => Iff.rfl⟩

theorem Quiet.broadcast (s : Pool α) : Quiet s s.broadcast := by
  refine ⟨rfl, rfl, rfl, rfl, rfl, rfl, fun w k i job => ?_⟩
  simp only [Pool.broadcast]
  cases s.workers w <;> simp

theorem Quiet.trans {s t u : Pool α} (h : Quiet s t) (h' : Quiet t u) : Quiet s u :=
  ⟨h'.next.trans h.next, h'.count.trans h.count, h'.remaining.trans h.remaining, h'.array.trans h.array,
    h'.window.trans h.window, h'.lending.trans h.lending,
    fun w k i job => (h'.running w k i job).trans (h.running w k i job)⟩

/-- A worker that runs no job goes where it runs none. -/
theorem Quiet.place {s : Pool α} {w : Worker} {x : WorkerAt α} (hw : (s.workers w).task w = none)
    (hx : x.task w = none) : Quiet s (s.place w x) := by
  refine ⟨rfl, rfl, rfl, rfl, rfl, rfl, fun v k i job => ?_⟩
  by_cases hv : v = w
  · subst hv
    simp only [Pool.place, Function.update_self]
    constructor
    · rintro rfl
      cases hx
    · intro h
      rw [h] at hw
      cases hw
  · simp only [Pool.place, Function.update_of_ne hv]

theorem Quiet.observeSignals (s : Pool α) (signals : List ℕ) : Quiet s (s.observeSignals signals) := by
  rw [Pool.observeSignals]
  split
  · exact .refl s
  · rename_i signal _
    have hset : Quiet s { s with signal, stop := true } := ⟨rfl, rfl, rfl, rfl, rfl, rfl, fun _ _ _ _ => Iff.rfl⟩
    exact hset.trans (.broadcast _)

/-! ### A job is taken -/

theorem rans_append (k : ℕ) (tr es : List (PoolEvent α)) : rans k (tr ++ es) = rans k tr ++ rans k es :=
  List.filterMap_append

theorem settles_append (k : ℕ) (tr es : List (PoolEvent α)) :
    settles k (tr ++ es) = settles k tr ++ settles k es :=
  List.filterMap_append

theorem rans_one (k k' i : ℕ) (job : α) (w : Worker) :
    rans k [.ran k' i job w] = if k' = k then [(i, job, w)] else [] := by
  simp only [rans, List.filterMap_cons, List.filterMap_nil, PoolEvent.ran?]
  split <;> split <;> simp_all

theorem settles_one (k k' i : ℕ) (job : α) (w : Worker) :
    settles k [.settled k' i job w] = if k' = k then [(i, job, w)] else [] := by
  simp only [settles, List.filterMap_cons, List.filterMap_nil, PoolEvent.settled?]
  split <;> split <;> simp_all

theorem zipIdx_take_succ {l : List α} {n : ℕ} {x : α} (h : l[n]? = some x) :
    l.zipIdx.take (n + 1) = l.zipIdx.take n ++ [(x, n)] := by
  rw [List.take_add_one, List.getElem?_zipIdx, h]
  simp

/-- A job is taken by a worker that runs none. -/
structure Claims (s s' : Pool α) (w : Worker) (job : α) : Prop where
  lending : s.lending = true
  taken : s.array[s.next]? = some job
  next : s'.next = s.next + 1
  count : s'.count = s.count
  remaining : s'.remaining = s.remaining
  array : s'.array = s.array
  window : s'.window = s.window
  lending' : s'.lending = true
  workers : s'.workers = Function.update s.workers w (.running (s.window - 1) s.next job)

/-- One more job is run. -/
theorem Claims.busy {s s' : Pool α} {w : Worker} {job : α} (hc : Claims s s' w job)
    (hw : (s.workers w).task w = none) : s'.busy.Perm ((s.next, job, w) :: s.busy) := by
  simp only [Pool.busy, hc.workers, task_update]
  exact filterMap_update_none (f := fun v => (s.workers v).task v) (List.nodup_finRange _)
    (List.mem_finRange w) hw

theorem PoolInv.claims {tr : List (PoolEvent α)} {s : Pool α} (h : PoolInv tr s) {w : Worker}
    (hne : s.next ≠ s.count) : ∃ job s', s.claim w = (s', [.ran (s.window - 1) s.next job w]) ∧
      Claims s s' w job := by
  have hle := h.bound
  have hlend : s.lending = true := by
    cases hl : s.lending with
    | true => rfl
    | false => exact absurd (h.rest hl).1 hne
  obtain ⟨job, hjob⟩ : ∃ job, s.array[s.next]? = some job :=
    ⟨_, List.getElem?_eq_getElem (by rw [← h.array]; omega)⟩
  refine ⟨job, ({ s with next := s.next + 1 } : Pool α).place w (.running (s.window - 1) s.next job), ?_,
    hlend, hjob, rfl, rfl, rfl, rfl, rfl, hlend, rfl⟩
  rw [Pool.claim, hjob]
  simp [hlend]

theorem PoolInv.claim {tr : List (PoolEvent α)} {s s' : Pool α} (h : PoolInv tr s) {w : Worker}
    {job : α} (hw : (s.workers w).task w = none) (hc : Claims s s' w job) :
    PoolInv (tr ++ [.ran (s.window - 1) s.next job w]) s' := by
  have hlt : s.next < s.count := by
    rw [h.array]
    exact (List.getElem?_eq_some_iff.mp hc.taken).1
  have hwindow := h.lent hc.lending
  obtain ⟨x, hx⟩ : ∃ x, x = (s.next, job, w) := ⟨_, rfl⟩
  have hbusy : s'.busy.Perm (x :: s.busy) := hx ▸ hc.busy hw
  have hrans : ∀ k, rans k (tr ++ [.ran (s.window - 1) s.next job w]) =
      rans k tr ++ if s.window - 1 = k then [x] else [] := fun k => by
    rw [rans_append, rans_one, hx]
  have hsettles : ∀ k, settles k (tr ++ [.ran (s.window - 1) s.next job w]) = settles k tr := fun k => by
    rw [settles_append]
    simp [settles, PoolEvent.settled?]
  refine ⟨?_, ?_, ?_, ?_, ?_, ?_, ?_, ?_, ?_, ?_, ?_, ?_, ?_⟩
  · rw [hc.next, hc.count]
    exact hlt
  · rw [hc.count, hc.array]
    exact h.array
  · have htally := h.tally
    rw [hbusy.length_eq, List.length_cons, hc.remaining, hc.count, hc.next]
    omega
  · rw [hc.lending']
    exact fun hl => absurd hl (by decide)
  · rw [hc.window]
    exact fun _ => hwindow
  · intro v k i j hv
    rw [hc.workers] at hv
    rw [hc.window]
    by_cases he : v = w
    · subst he
      rw [Function.update_self, WorkerAt.running.injEq] at hv
      omega
    · rw [Function.update_of_ne he] at hv
      exact h.running v k i j hv
  · simpa [hc.window] using h.began
  · simpa [hc.window, hc.array, hc.lending', hc.lending] using h.current
  · simpa [hc.window, hc.lending', hc.lending] using h.returned
  · intro k jobs hk
    have hk : .began k jobs ∈ tr := by simpa using hk
    have hlast := h.began k jobs hk
    rw [hrans, List.map_append, h.order k jobs hk, hc.lending', hc.lending, hc.window, hc.next]
    by_cases hcur : k + 1 = s.window
    · have hjobs := h.current hc.lending k jobs hk hcur
      rw [if_pos ⟨rfl, hcur⟩, if_pos (by omega), if_pos ⟨rfl, hcur⟩, hjobs, zipIdx_take_succ hc.taken, hx]
      rfl
    · rw [if_neg fun hc => hcur hc.2, if_neg (by omega), if_neg fun hc => hcur hc.2]
      simp
  · intro k
    have hold := h.settled k
    rw [hrans, hsettles, hc.window]
    by_cases hcur : k + 1 = s.window
    · rw [if_pos hcur] at hold ⊢
      rw [if_pos (by omega)]
      refine (hold.append_right [x]).trans ?_
      rw [List.append_assoc]
      exact List.Perm.append_left _ ((List.perm_append_singleton x s.busy).trans hbusy.symm)
    · rw [if_neg hcur] at hold ⊢
      rw [if_neg (by omega), List.append_nil]
      exact hold
  · intro k hk
    rw [hc.window] at hk
    rw [hrans, h.fresh k hk, if_neg (by omega)]
    rfl
  · simpa using h.sane

/-! ### A job is done -/

/-- The state behind the end of a run. -/
structure Settles (s s' : Pool α) (w : Worker) : Prop where
  next : s'.next = s.next
  count : s'.count = s.count
  remaining : s'.remaining = Pool.settleCount s.remaining
  array : s'.array = s.array
  window : s'.window = s.window
  lending : s'.lending = s.lending
  workers : s'.workers = Function.update s.workers w .top

theorem settle_settles (s : Pool α) (w : Worker) : Settles s (s.settle w) w := by
  rw [Pool.settle]
  by_cases hr : Pool.settleCount s.remaining = 0
  · have hlending : (Pool.signalSettled s.coordinator == .asleep ||
        Pool.signalSettled s.coordinator == .awake) = s.lending := by
      rw [Pool.lending]
      cases s.coordinator <;> rfl
    simp only [Pool.place, hr, if_true]
    exact ⟨rfl, rfl, hr.symm, rfl, rfl, hlending, rfl⟩
  · simp only [Pool.place, hr, if_false]
    exact ⟨rfl, rfl, rfl, rfl, rfl, rfl, rfl⟩

/-- One job less is run. -/
theorem Settles.busy {s s' : Pool α} {w : Worker} (hs : Settles s s' w) {k i : ℕ} {job : α}
    (hw : s.workers w = .running k i job) : s.busy.Perm ((i, job, w) :: s'.busy) := by
  have htask : (s.workers w).task w = some (i, job, w) := by rw [hw]; rfl
  simp only [Pool.busy, hs.workers, task_update]
  exact filterMap_update_some (f := fun v => (s.workers v).task v) (List.nodup_finRange _)
    (List.mem_finRange w) htask

theorem PoolInv.settle {tr : List (PoolEvent α)} {s s' : Pool α} (h : PoolInv tr s) {w : Worker}
    {k i : ℕ} {job : α} (hw : s.workers w = .running k i job) (hs : Settles s s' w) :
    PoolInv (tr ++ [.settled k i job w]) s' := by
  obtain ⟨x, hx⟩ : ∃ x, x = (i, job, w) := ⟨_, rfl⟩
  have hk := h.running w k i job hw
  have hbusy : s.busy.Perm (x :: s'.busy) := hx ▸ hs.busy hw
  have hremaining : s'.remaining = s.remaining - 1 := by
    have htally := h.tally
    rw [hbusy.length_eq, List.length_cons] at htally
    rw [hs.remaining, Pool.settleCount, if_neg (by omega)]
  have hrans : ∀ j, rans j (tr ++ [.settled k i job w]) = rans j tr := fun j => by
    rw [rans_append]
    simp [rans, PoolEvent.ran?]
  have hsettles : ∀ j, settles j (tr ++ [.settled k i job w]) =
      settles j tr ++ if k = j then [x] else [] := fun j => by
    rw [settles_append, settles_one, hx]
  refine ⟨?_, ?_, ?_, ?_, ?_, ?_, ?_, ?_, ?_, ?_, ?_, ?_, ?_⟩
  · rw [hs.next, hs.count]
    exact h.bound
  · rw [hs.count, hs.array]
    exact h.array
  · have htally := h.tally
    rw [hbusy.length_eq, List.length_cons] at htally
    rw [hremaining, hs.count, hs.next]
    omega
  · intro hl
    rw [hs.lending] at hl
    have hrest := h.rest hl
    rw [hrest.2] at hbusy
    exact absurd hbusy.length_eq (by simp)
  · rw [hs.lending, hs.window]
    exact h.lent
  · intro v k' i' j hv
    rw [hs.workers] at hv
    rw [hs.window]
    by_cases he : v = w
    · subst he
      rw [Function.update_self] at hv
      cases hv
    · rw [Function.update_of_ne he] at hv
      exact h.running v k' i' j hv
  · simpa [hs.window] using h.began
  · simpa [hs.window, hs.array, hs.lending] using h.current
  · simpa [hs.window, hs.lending] using h.returned
  · simpa [hrans, hs.window, hs.lending, hs.next] using h.order
  · intro j
    have hold := h.settled j
    rw [hrans, hsettles, hs.window]
    by_cases hcur : j + 1 = s.window
    · rw [if_pos hcur] at hold ⊢
      rw [if_pos (by omega), List.append_assoc]
      exact hold.trans (List.Perm.append_left _ hbusy)
    · rw [if_neg hcur] at hold ⊢
      rw [if_neg (by omega), List.append_nil]
      exact hold
  · intro j hj
    rw [hs.window] at hj
    rw [hrans, h.fresh j hj]
  · simpa using h.sane

/-! ### A window is lent and given back -/

theorem PoolInv.idle {tr : List (PoolEvent α)} {s : Pool α} (h : PoolInv tr s)
    (hs : s.coordinator = .idle) : s.lending = false ∧ s.next = s.count ∧ s.busy = [] := by
  have hl : s.lending = false := by rw [Pool.lending, hs]; rfl
  exact ⟨hl, h.rest hl⟩

theorem PoolInv.beginEmpty {tr : List (PoolEvent α)} {s s' : Pool α} (h : PoolInv tr s)
    (hs : s.coordinator = .idle) (hs' : s' = { s with window := s.window + 1 }) :
    PoolInv (tr ++ [.began s.window [], .returned s.window]) s' := by
  obtain ⟨hlend, -, hbusy⟩ := h.idle hs
  have hlend' : s'.lending = false := by rw [hs']; exact hlend
  have hbusy' : s'.busy = [] := by rw [hs']; exact hbusy
  have hwindow : s'.window = s.window + 1 := by rw [hs']
  have hrans : ∀ k, rans k (tr ++ [.began s.window [], .returned s.window]) = rans k tr := fun k => by
    rw [rans_append]
    simp [rans, PoolEvent.ran?]
  have hsettles : ∀ k, settles k (tr ++ [.began s.window [], .returned s.window]) = settles k tr :=
    fun k => by rw [settles_append]; simp [settles, PoolEvent.settled?]
  refine ⟨?_, ?_, ?_, ?_, ?_, ?_, ?_, ?_, ?_, ?_, ?_, ?_, ?_⟩
  · rw [hs']; exact h.bound
  · rw [hs']; exact h.array
  · have htally := h.tally
    rw [hbusy] at htally
    rw [hbusy', hs']
    exact htally
  · intro _
    rw [hs'] at *
    exact h.rest hlend
  · rw [hlend']
    exact fun hl => absurd hl (by decide)
  · intro w k i job hw
    rw [hs'] at hw
    have hmem : (i, job, w) ∈ s.busy := by
      refine List.mem_filterMap.mpr ⟨w, List.mem_finRange w, ?_⟩
      rw [show s.workers w = .running k i job from hw]
      rfl
    rw [hbusy] at hmem
    cases hmem
  · intro k jobs hk
    rw [hwindow]
    obtain hk | hk := List.mem_append.mp hk
    · exact Nat.lt_succ_of_lt (h.began k jobs hk)
    · simp only [List.mem_cons, PoolEvent.began.injEq, reduceCtorEq, List.not_mem_nil, or_false] at hk
      omega
  · rw [hlend']
    exact fun hl => absurd hl (by decide)
  · intro k hk
    rw [hlend', hwindow]
    refine ⟨?_, fun hl => absurd hl (by decide)⟩
    obtain hk | hk := List.mem_append.mp hk
    · exact Nat.lt_succ_of_lt (h.returned k hk).1
    · simp only [List.mem_cons, PoolEvent.returned.injEq, reduceCtorEq, List.not_mem_nil, or_false,
        false_or] at hk
      omega
  · intro k jobs hk
    rw [hrans, if_neg (by rw [hlend']; simp)]
    obtain hk | hk := List.mem_append.mp hk
    · have hold := h.order k jobs hk
      rwa [if_neg (by rw [hlend]; simp)] at hold
    · simp only [List.mem_cons, PoolEvent.began.injEq, reduceCtorEq, List.not_mem_nil, or_false] at hk
      rw [hk.1, hk.2, h.fresh s.window (Nat.le_refl _)]
      rfl
  · intro k
    have hold := h.settled k
    rw [hbusy] at hold
    rw [hrans, hsettles, hbusy']
    simpa using hold
  · intro k hk
    rw [hwindow] at hk
    rw [hrans, h.fresh k (by omega)]
  · simpa using h.sane

/-- The state in which `jf_pool_window` first waits. -/
structure Lends (s s' : Pool α) (jobs : List α) : Prop where
  next : s'.next = 0
  count : s'.count = jobs.length
  remaining : s'.remaining = jobs.length
  array : s'.array = jobs
  window : s'.window = s.window + 1
  lending : s'.lending = true
  busy : s'.busy = s.busy

theorem PoolInv.begin {tr : List (PoolEvent α)} {s s' : Pool α} {jobs : List α} (h : PoolInv tr s)
    (hs : s.coordinator = .idle) (hl : Lends s s' jobs) : PoolInv (tr ++ [.began s.window jobs]) s' := by
  obtain ⟨hlend, -, hbusy⟩ := h.idle hs
  have hrans : ∀ k, rans k (tr ++ [.began s.window jobs]) = rans k tr := fun k => by
    rw [rans_append]
    simp [rans, PoolEvent.ran?]
  have hsettles : ∀ k, settles k (tr ++ [.began s.window jobs]) = settles k tr :=
    fun k => by rw [settles_append]; simp [settles, PoolEvent.settled?]
  have hmem : ∀ {k jobs'}, .began k jobs' ∈ tr ++ [.began s.window jobs] →
      .began k jobs' ∈ tr ∨ k = s.window ∧ jobs' = jobs := by
    intro k jobs' hk
    simpa using hk
  refine ⟨?_, ?_, ?_, ?_, ?_, ?_, ?_, ?_, ?_, ?_, ?_, ?_, ?_⟩
  · rw [hl.next]; exact Nat.zero_le _
  · rw [hl.count, hl.array]
  · rw [hl.remaining, hl.count, hl.next, hl.busy, hbusy]
    simp
  · rw [hl.lending]
    exact fun hf => absurd hf (by decide)
  · rw [hl.window]
    exact fun _ => Nat.succ_pos _
  · intro w k i job hw
    have hin : (i, job, w) ∈ s'.busy := by
      refine List.mem_filterMap.mpr ⟨w, List.mem_finRange w, ?_⟩
      rw [hw]
      rfl
    rw [hl.busy, hbusy] at hin
    cases hin
  · intro k jobs' hk
    rw [hl.window]
    obtain hk | ⟨rfl, -⟩ := hmem hk
    · exact Nat.lt_succ_of_lt (h.began k jobs' hk)
    · exact Nat.lt_succ_self _
  · intro _ k jobs' hk hcur
    rw [hl.window] at hcur
    rw [hl.array]
    obtain hk | ⟨-, rfl⟩ := hmem hk
    · have hlt := h.began k jobs' hk
      omega
    · rfl
  · intro k hk
    have hk : .returned k ∈ tr := by simpa using hk
    have hlt := (h.returned k hk).1
    rw [hl.window]
    omega
  · intro k jobs' hk
    rw [hrans, hl.lending, hl.window, hl.next]
    obtain hk | ⟨rfl, rfl⟩ := hmem hk
    · have hlt := h.began k jobs' hk
      have hold := h.order k jobs' hk
      rw [if_neg (by rw [hlend]; simp)] at hold
      rw [if_neg (by omega), hold]
    · rw [if_pos ⟨rfl, rfl⟩, h.fresh s.window (Nat.le_refl _)]
      rfl
  · intro k
    have hold := h.settled k
    rw [hbusy] at hold
    rw [hrans, hsettles, hl.busy, hbusy]
    simpa using hold
  · intro k hk
    rw [hl.window] at hk
    rw [hrans, h.fresh k (by omega)]
  · simpa using h.sane

/-- With nothing remaining every job of the window was taken and is done. -/
theorem PoolInv.drained {tr : List (PoolEvent α)} {s : Pool α} (h : PoolInv tr s)
    (hr : s.remaining = 0) : s.next = s.count ∧ s.busy = [] := by
  have htally := h.tally
  have hle := h.bound
  exact ⟨by omega, List.length_eq_zero_iff.mp (by omega)⟩

theorem PoolInv.give {tr : List (PoolEvent α)} {s s' : Pool α} (h : PoolInv tr s)
    (hlend : s.lending = true) (hr : s.remaining = 0) (hs' : s' = { s with coordinator := .idle }) :
    PoolInv (tr ++ [.returned (s.window - 1)]) s' := by
  obtain ⟨hnext, hbusy⟩ := h.drained hr
  have hwindow := h.lent hlend
  have hlend' : s'.lending = false := by rw [hs']; rfl
  have hrans : ∀ k, rans k (tr ++ [.returned (s.window - 1)]) = rans k tr := fun k => by
    rw [rans_append]
    simp [rans, PoolEvent.ran?]
  have hsettles : ∀ k, settles k (tr ++ [.returned (s.window - 1)]) = settles k tr :=
    fun k => by rw [settles_append]; simp [settles, PoolEvent.settled?]
  refine ⟨?_, ?_, ?_, ?_, ?_, ?_, ?_, ?_, ?_, ?_, ?_, ?_, ?_⟩
  · rw [hs']; exact h.bound
  · rw [hs']; exact h.array
  · rw [hs']; exact h.tally
  · rw [hs']; exact fun _ => ⟨hnext, hbusy⟩
  · rw [hlend']
    exact fun hl => absurd hl (by decide)
  · rw [hs']; exact h.running
  · rw [hs']; simpa using h.began
  · rw [hlend']
    exact fun hl => absurd hl (by decide)
  · intro k hk
    rw [hlend', hs']
    refine ⟨?_, fun hl => absurd hl (by decide)⟩
    obtain hk | hk := List.mem_append.mp hk
    · exact (h.returned k hk).1
    · simp only [List.mem_singleton, PoolEvent.returned.injEq] at hk
      show k < s.window
      omega
  · intro k jobs hk
    have hk : .began k jobs ∈ tr := by simpa using hk
    have hold := h.order k jobs hk
    rw [hrans, if_neg (by rw [hlend']; simp), hold]
    split
    · rename_i hcur
      rw [h.current hlend k jobs hk hcur.2, hnext, h.array]
    · rfl
  · rw [hs']
    intro k
    rw [hrans, hsettles]
    exact h.settled k
  · rw [hs']
    intro k hk
    rw [hrans]
    exact h.fresh k hk
  · simpa using h.sane

/-! ### Every step -/

theorem enter_cases {s s' : Pool α} {w : Worker} {es : List (PoolEvent α)} (hw : s.workers w = .top)
    (h : s.enter w = (s', es)) : (Quiet s s' ∧ es = []) ∨ (s.next ≠ s.count ∧ s.claim w = (s', es)) := by
  rw [Pool.enter] at h
  by_cases hq : s.quit = true
  · rw [if_pos hq] at h
    cases h
    exact .inl ⟨.place (by rw [hw]; rfl) rfl, rfl⟩
  · rw [if_neg hq] at h
    by_cases hn : s.next = s.count
    · rw [if_pos hn] at h
      cases h
      exact .inl ⟨.place (by rw [hw]; rfl) rfl, rfl⟩
    · rw [if_neg hn] at h
      exact .inr ⟨hn, h⟩

/-- `jf_pool_finish` has joined every thread. -/
structure Pool.Over (s : Pool α) : Prop where
  finished : s.coordinator = .finished
  observing : s.observing = false
  left : ∀ w, (s.workers w).left = true

/-- Broadcasting wakes nobody who has left. -/
theorem left_observeSignals {s : Pool α} (h : ∀ w, (s.workers w).left = true) (signals : List ℕ)
    (w : Worker) : ((s.observeSignals signals).workers w).left = true := by
  rw [Pool.observeSignals]
  split
  · exact h w
  · have hw := h w
    simp only [Pool.broadcast]
    split
    · rename_i hasleep
      rw [hasleep] at hw
      cases hw
    · exact hw

theorem observing_observeSignals (s : Pool α) (signals : List ℕ) :
    (s.observeSignals signals).observing = s.observing := by
  rw [Pool.observeSignals]
  split <;> rfl

/-- What a step can do: nothing to the windows, or one of the five moves above. -/
inductive Moves (s s' : Pool α) : List (PoolEvent α) → Prop where
  | quiet (h : Quiet s s') : Moves s s' []
  | joined (h : Quiet s s') (hover : s'.Over) : Moves s s' [.joined]
  | ran (w : Worker) (job : α) (hw : (s.workers w).task w = none) (hc : Claims s s' w job) :
    Moves s s' [.ran (s.window - 1) s.next job w]
  | settled (w : Worker) (k i : ℕ) (job : α) (hw : s.workers w = .running k i job)
    (hs : Settles s s' w) : Moves s s' [.settled k i job w]
  | empty (hs : s.coordinator = .idle) (hs' : s' = { s with window := s.window + 1 }) :
    Moves s s' [.began s.window [], .returned s.window]
  | began (jobs : List α) (hs : s.coordinator = .idle) (hl : Lends s s' jobs) :
    Moves s s' [.began s.window jobs]
  | returned (hl : s.lending = true) (hr : s.remaining = 0) (hs' : s' = { s with coordinator := .idle }) :
    Moves s s' [.returned (s.window - 1)]

theorem quiet_coordinator {s : Pool α} {c : CoordinatorAt}
    (h : (c == .asleep || c == .awake) = s.lending) : Quiet s { s with coordinator := c } :=
  ⟨rfl, rfl, rfl, rfl, rfl, h, fun _ _ _ _ => Iff.rfl⟩

theorem quiet_flags (s : Pool α) (stop quit observing : Bool) :
    Quiet s { s with stop, quit, observing } :=
  ⟨rfl, rfl, rfl, rfl, rfl, rfl, fun _ _ _ _ => Iff.rfl⟩

section Act

variable {tr es : List (PoolEvent α)} {s s' : Pool α}

theorem enter_moves {w : Worker} (h : PoolInv tr s) (ha : s.act (.enter w) = some (s', es)) : Moves s s' es := by
  simp only [Pool.act] at ha
  split at ha
  · rename_i hw
    obtain ⟨hq, rfl⟩ | ⟨hne, hclaim⟩ := enter_cases hw (Option.some.inj ha)
    · exact .quiet hq
    · obtain ⟨job, t, ht, hc⟩ := h.claims hne
      rw [ht] at hclaim
      cases hclaim
      exact .ran w job (by rw [hw]; rfl) hc
  · cases ha

theorem begin_moves {jobs : List α} (ha : s.act (.begin jobs) = some (s', es)) : Moves s s' es := by
  simp only [Pool.act] at ha
  split at ha
  · rename_i hidle
    simp only [Pool.beginWindow] at ha
    split at ha
    · rename_i hnil
      obtain rfl := List.length_eq_zero_iff.mp hnil
      cases ha
      exact .empty hidle rfl
    · cases ha
      have hbusy : ∀ t : Pool α, t.workers = s.workers → t.broadcast.busy = s.busy := fun t ht => by
        rw [(Quiet.broadcast t).busy, Pool.busy, ht, Pool.busy]
      exact .began jobs hidle ⟨rfl, rfl, rfl, rfl, rfl, rfl, hbusy _ rfl⟩
  · cases ha

theorem check_moves (ha : s.act .check = some (s', es)) : Moves s s' es := by
  simp only [Pool.act] at ha
  split at ha
  · rename_i hawake
    have hl : s.lending = true := by rw [Pool.lending, hawake]; rfl
    simp only [Pool.checkWindow] at ha
    split at ha
    · rename_i hr
      cases ha
      exact .returned hl hr rfl
    · cases ha
      exact .quiet (quiet_coordinator (by rw [hl]; rfl))
  · cases ha

theorem finish_moves (h : PoolInv tr s) (ha : s.act .finish = some (s', es)) : Moves s s' es := by
  simp only [Pool.act] at ha
  split at ha
  · rename_i hidle
    cases ha
    have hcoord : Quiet s { s with coordinator := .joining } :=
      quiet_coordinator (by rw [(h.idle hidle).1]; rfl)
    exact .quiet ((hcoord.trans (quiet_flags _ _ true _)).trans (.broadcast _))
  · cases ha

theorem join_moves {signals : List ℕ} (ha : s.act (.join signals) = some (s', es)) : Moves s s' es := by
  simp only [Pool.act] at ha
  split at ha
  · rename_i hjoin
    cases ha
    have hlend : s.lending = false := by rw [Pool.lending, hjoin.1]; rfl
    have hobs := Quiet.observeSignals s signals
    refine .joined (hobs.trans (quiet_coordinator ?_)) ⟨rfl, ?_, left_observeSignals hjoin.2.1 signals⟩
    · rw [hobs.lending, hlend]
      rfl
    · exact (observing_observeSignals s signals).trans hjoin.2.2
  · cases ha

theorem act_moves {a : PoolAct α} (h : PoolInv tr s) (ha : s.act a = some (s', es)) : Moves s s' es := by
  cases a with
  | enter w => exact enter_moves h ha
  | begin jobs => exact begin_moves ha
  | check => exact check_moves ha
  | finish => exact finish_moves h ha
  | join signals => exact join_moves ha
  | settle w =>
    simp only [Pool.act] at ha
    split at ha
    · rename_i k i job hw
      cases ha
      exact .settled w k i job hw (settle_settles s w)
    · cases ha
  | stoppedWorker w signals =>
    simp only [Pool.act] at ha
    split at ha
    · cases ha
      exact .quiet (.observeSignals s signals)
    · cases ha
  | stoppedCoordinator signals =>
    simp only [Pool.act] at ha
    split at ha
    · cases ha
      exact .quiet (.observeSignals s signals)
    · cases ha
  | observe signals =>
    simp only [Pool.act] at ha
    split at ha
    · cases ha
      exact .quiet ((Quiet.observeSignals s signals).trans (quiet_flags _ _ _ _))
    · cases ha
  | stopWorker w =>
    simp only [Pool.act] at ha
    split at ha
    · cases ha
      exact .quiet ((quiet_flags s _ _ _).trans (.broadcast _))
    · cases ha
  | stopCoordinator =>
    simp only [Pool.act] at ha
    split at ha
    · cases ha
      exact .quiet ((quiet_flags s _ _ _).trans (.broadcast _))
    · cases ha
  | rouseWorker w =>
    simp only [Pool.act] at ha
    split at ha
    · rename_i hw
      cases ha
      exact .quiet (.place (by rw [hw]; rfl) rfl)
    · cases ha
  | rouseCoordinator =>
    simp only [Pool.act] at ha
    split at ha
    · rename_i hasleep
      cases ha
      exact .quiet (quiet_coordinator (by rw [Pool.lending, hasleep]; rfl))
    · cases ha

end Act

theorem PoolInv.moves {tr es : List (PoolEvent α)} {s s' : Pool α} (h : PoolInv tr s)
    (hm : Moves s s' es) : PoolInv (tr ++ es) s' := by
  cases hm with
  | quiet hq => simpa using h.quiet hq
  | joined hq _ => exact (h.quiet hq).joined
  | ran w job hw hc => exact h.claim hw hc
  | settled w k i job hw hs => exact h.settle hw hs
  | empty hs hs' => exact h.beginEmpty hs hs'
  | began jobs hs hl => exact h.begin hs hl
  | returned hl hr hs' => exact h.give hl hr hs'

theorem pool_inv {tr : List (PoolEvent α)} {s : Pool α} (h : (pool α).Runs tr s) : PoolInv tr s := by
  refine h.invariant (P := PoolInv) ?_ fun _ hinv ha => hinv.moves (act_moves hinv ha)
  have hbusy : (pool α).start.busy = [] := List.filterMap_eq_nil_iff.mpr fun _ _ => rfl
  refine ⟨Nat.le_refl _, rfl, ?_, fun _ => ⟨rfl, hbusy⟩, ?_, ?_, ?_, ?_, ?_, ?_, ?_, ?_, ?_⟩
  · rw [hbusy]
    rfl
  · exact fun hl => by cases hl
  · exact fun _ _ _ _ hw => by cases hw
  · exact fun _ _ hk => absurd hk List.not_mem_nil
  · exact fun _ _ _ hk => absurd hk List.not_mem_nil
  · exact fun _ hk => absurd hk List.not_mem_nil
  · exact fun _ _ hk => absurd hk List.not_mem_nil
  · intro k
    rw [hbusy]
    simp [rans, settles]
  · exact fun _ _ => rfl
  · exact List.not_mem_nil

/-! ### No wake-up is lost -/

/-- Whoever has something to do is not asleep. -/
structure Pool.Wakeful (s : Pool α) : Prop where
  present : s.quit = true → s.coordinator = .joining ∨ s.coordinator = .finished
  staying : s.quit = false → ∀ w, s.workers w ≠ .exited
  stirred : s.lending = true → s.next < s.count → ∀ w, s.workers w ≠ .asleep
  called : s.coordinator = .asleep → 0 < s.remaining

theorem broadcast_asleep (s : Pool α) (w : Worker) : s.broadcast.workers w ≠ .asleep := by
  simp only [Pool.broadcast]
  split
  · exact fun h => by cases h
  · assumption

theorem broadcast_exited (s : Pool α) (w : Worker) :
    s.broadcast.workers w = .exited ↔ s.workers w = .exited := by
  simp only [Pool.broadcast]
  cases s.workers w <;> simp

namespace Pool.Wakeful

variable {s : Pool α}

theorem broadcast (h : s.Wakeful) : s.broadcast.Wakeful where
  present := h.present
  staying := fun hq w hw => h.staying hq w ((broadcast_exited s w).mp hw)
  stirred := fun _ _ w => broadcast_asleep s w
  called := h.called

theorem stopped (h : s.Wakeful) (stop : Bool) (signal : ℕ) : { s with stop, signal }.Wakeful :=
  ⟨h.present, h.staying, h.stirred, h.called⟩

theorem observed (h : s.Wakeful) (observing : Bool) : { s with observing }.Wakeful :=
  ⟨h.present, h.staying, h.stirred, h.called⟩

theorem observeSignals (h : s.Wakeful) (signals : List ℕ) : (s.observeSignals signals).Wakeful := by
  rw [Pool.observeSignals]
  split
  · exact h
  · exact (h.stopped true _).broadcast

theorem place (h : s.Wakeful) (w : Worker) {x : WorkerAt α} (he : x = .exited → s.quit = true)
    (ha : x = .asleep → s.next = s.count) : (s.place w x).Wakeful where
  present := h.present
  staying := fun hq v hv => by
    have hq' : s.quit = false := hq
    simp only [Pool.place] at hv
    by_cases hvw : v = w
    · subst hvw
      rw [Function.update_self] at hv
      rw [he hv] at hq'
      cases hq'
    · rw [Function.update_of_ne hvw] at hv
      exact h.staying hq' v hv
  stirred := fun hl hn v hv => by
    have hn : s.next < s.count := hn
    simp only [Pool.place] at hv
    by_cases hvw : v = w
    · subst hvw
      rw [Function.update_self] at hv
      exact absurd (ha hv) (Nat.ne_of_lt hn)
    · rw [Function.update_of_ne hvw] at hv
      exact h.stirred hl hn v hv
  called := h.called

theorem advance (h : s.Wakeful) : { s with next := s.next + 1 }.Wakeful :=
  ⟨h.present, h.staying, fun hl hn => h.stirred hl (Nat.lt_of_succ_lt hn), h.called⟩

theorem enter (h : s.Wakeful) (w : Worker) : (s.enter w).1.Wakeful := by
  rw [Pool.enter]
  by_cases hq : s.quit = true
  · rw [if_pos hq]
    exact h.place w (fun _ => hq) fun hx => by cases hx
  · rw [if_neg hq]
    by_cases hn : s.next = s.count
    · rw [if_pos hn]
      exact h.place w (fun hx => by cases hx) fun _ => hn
    · rw [if_neg hn, Pool.claim]
      split
      · exact h.advance
      · exact h.advance.place w (fun hx => by cases hx) fun hx => by cases hx

theorem settle (h : s.Wakeful) (w : Worker) : (s.settle w).Wakeful := by
  have hplace : (s.place w .top).Wakeful := h.place w (fun hx => by cases hx) fun hx => by cases hx
  by_cases h0 : settleCount s.remaining = 0
  · have hgone : ∀ c, (c = .joining ∨ c = .finished) → signalSettled c = c := by
      rintro c (rfl | rfl) <;> rfl
    have hset := settle_settles s w
    have hcoordinator : (s.settle w).coordinator = signalSettled s.coordinator := by
      simp only [Pool.settle, Pool.place, h0, if_true]
    have hquit : (s.settle w).quit = s.quit := by simp only [Pool.settle, Pool.place, h0, if_true]
    refine ⟨fun hq => ?_, fun hq => ?_, fun hl hn => ?_, fun hc => ?_⟩
    · rw [hquit] at hq
      rw [hcoordinator, hgone _ (h.present hq)]
      exact h.present hq
    · rw [hquit] at hq
      rw [hset.workers]
      exact hplace.staying hq
    · rw [hset.lending] at hl
      rw [hset.next, hset.count] at hn
      rw [hset.workers]
      exact hplace.stirred hl hn
    · rw [hcoordinator] at hc
      cases hs : s.coordinator <;> rw [hs] at hc <;> cases hc
  · have hstate : s.settle w = { s.place w .top with remaining := settleCount s.remaining } := by
      simp only [Pool.settle, Pool.place, h0, if_false]
    rw [hstate]
    exact ⟨hplace.present, hplace.staying, hplace.stirred, fun _ => Nat.pos_of_ne_zero h0⟩

theorem beginWindow (h : s.Wakeful) (hs : s.coordinator = .idle) (jobs : List α) :
    (s.beginWindow jobs).1.Wakeful := by
  have hquit : s.quit = true → False := fun hq => by
    obtain hc | hc := h.present hq <;> rw [hs] at hc <;> cases hc
  rw [Pool.beginWindow]
  split
  · exact ⟨h.present, h.staying, h.stirred, h.called⟩
  · rename_i hne
    refine ⟨fun hq => (hquit hq).elim, fun hq w hw => ?_, fun _ _ w => broadcast_asleep _ w,
      fun _ => Nat.pos_of_ne_zero hne⟩
    exact h.staying hq w ((broadcast_exited _ w).mp hw)

theorem checkWindow (h : s.Wakeful) (hs : s.coordinator = .awake) : s.checkWindow.1.Wakeful := by
  have hquit : s.quit = true → False := fun hq => by
    obtain hc | hc := h.present hq <;> rw [hs] at hc <;> cases hc
  have hl : s.lending = true := by rw [Pool.lending, hs]; rfl
  rw [Pool.checkWindow]
  split
  · exact ⟨fun hq => (hquit hq).elim, h.staying, fun hl' => (by cases hl'), fun hc => by cases hc⟩
  · rename_i hr
    exact ⟨fun hq => (hquit hq).elim, h.staying, fun _ => h.stirred hl, fun _ => Nat.pos_of_ne_zero hr⟩

/-- The coordinator leaves its idle state for the last time. -/
theorem finish (s : Pool α) : { s with quit := true, coordinator := .joining }.broadcast.Wakeful :=
  ⟨fun _ => .inl rfl, fun hq => (by cases hq), fun hl => (by cases hl), fun hc => by cases hc⟩

theorem join (h : s.Wakeful) :
    { s with coordinator := .finished }.Wakeful :=
  ⟨fun _ => .inr rfl, h.staying, fun hl => (by cases hl), fun hc => by cases hc⟩

theorem rouse (h : s.Wakeful) (hs : s.coordinator = .asleep) :
    { s with coordinator := .awake }.Wakeful := by
  have hl : s.lending = true := by rw [Pool.lending, hs]; rfl
  refine ⟨fun hq => ?_, h.staying, fun _ => h.stirred hl, fun hc => by cases hc⟩
  obtain hc | hc := h.present hq <;> rw [hs] at hc <;> cases hc

end Pool.Wakeful

theorem act_wakeful {s s' : Pool α} {a : PoolAct α} {es : List (PoolEvent α)} (h : s.Wakeful)
    (ha : s.act a = some (s', es)) : s'.Wakeful := by
  cases a with
  | enter w =>
    simp only [Pool.act] at ha
    split at ha
    · have hs : s'.Wakeful := by
        have he := h.enter w
        rwa [Option.some.inj ha] at he
      exact hs
    · cases ha
  | settle w =>
    simp only [Pool.act] at ha
    split at ha
    · cases ha
      exact h.settle w
    · cases ha
  | stoppedWorker w signals =>
    simp only [Pool.act] at ha
    split at ha
    · cases ha
      exact h.observeSignals signals
    · cases ha
  | stoppedCoordinator signals =>
    simp only [Pool.act] at ha
    split at ha
    · cases ha
      exact h.observeSignals signals
    · cases ha
  | observe signals =>
    simp only [Pool.act] at ha
    split at ha
    · cases ha
      exact (h.observeSignals signals).observed _
    · cases ha
  | stopWorker w =>
    simp only [Pool.act] at ha
    split at ha
    · cases ha
      exact (h.stopped true s.signal).broadcast
    · cases ha
  | stopCoordinator =>
    simp only [Pool.act] at ha
    split at ha
    · cases ha
      exact (h.stopped true s.signal).broadcast
    · cases ha
  | begin jobs =>
    simp only [Pool.act] at ha
    split at ha
    · rename_i hidle
      have hb := h.beginWindow hidle jobs
      rwa [Option.some.inj ha] at hb
    · cases ha
  | check =>
    simp only [Pool.act] at ha
    split at ha
    · rename_i hawake
      have hc := h.checkWindow hawake
      rwa [Option.some.inj ha] at hc
    · cases ha
  | finish =>
    simp only [Pool.act] at ha
    split at ha
    · cases ha
      exact Pool.Wakeful.finish s
    · cases ha
  | join signals =>
    simp only [Pool.act] at ha
    split at ha
    · cases ha
      exact (h.observeSignals signals).join
    · cases ha
  | rouseWorker w =>
    simp only [Pool.act] at ha
    split at ha
    · cases ha
      exact h.place w (fun hx => by cases hx) fun hx => by cases hx
    · cases ha
  | rouseCoordinator =>
    simp only [Pool.act] at ha
    split at ha
    · rename_i hasleep
      cases ha
      exact h.rouse hasleep
    · cases ha

theorem pool_wakeful {tr : List (PoolEvent α)} {s : Pool α} (h : (pool α).Runs tr s) : s.Wakeful := by
  refine h.invariant (P := fun _ s => s.Wakeful) ?_ fun _ hs ha => act_wakeful hs ha
  exact ⟨fun hq => (by cases hq), fun _ _ hw => (by cases hw), fun hl => (by cases hl),
    fun hc => (by cases hc)⟩

/-! ### A window ends -/

/-- The steps that the workers owe to the window. -/
def Pool.work (s : Pool α) : ℕ := 2 * (s.count - s.next) + s.busy.length

/-- With a job left some worker is before its lock. -/
theorem worker_ready {s : Pool α} (hs : s.Wakeful)
    (hl : s.lending = true) (hn : s.next < s.count) (hbusy : s.busy = []) (w : Worker) :
    s.workers w = .top ∧ s.quit = false := by
  have hquit : s.quit = false := by
    cases hq : s.quit with
    | false => rfl
    | true =>
      obtain hc | hc := hs.present hq <;> rw [Pool.lending, hc] at hl <;> cases hl
  refine ⟨?_, hquit⟩
  cases hw : s.workers w with
  | top => rfl
  | asleep => exact absurd hw (hs.stirred hl hn w)
  | exited => exact absurd hw (hs.staying hquit w)
  | running k i job =>
    have hmem : (i, job, w) ∈ s.busy :=
      List.mem_filterMap.mpr ⟨w, List.mem_finRange w, by rw [hw]; rfl⟩
    rw [hbusy] at hmem
    cases hmem

/-- In every state of a window the threads can bring it to its end. -/
theorem window_ends {tr : List (PoolEvent α)} {s : Pool α} (h : (pool α).Runs tr s)
    (hl : s.lending = true) : ∃ as tr' s', (pool α).exec as tr s = some (tr', s') ∧
      .returned (s.window - 1) ∈ tr' := by
  obtain ⟨n, hn⟩ : ∃ n, n = s.work := ⟨_, rfl⟩
  induction n using Nat.strongRecOn generalizing tr s with
  | ind n ih =>
    have hinv := pool_inv h
    have hwake := pool_wakeful h
    have htally := hinv.tally
    obtain hr | hr := Nat.eq_zero_or_pos s.remaining
    · -- The last job woke the coordinator.
      have hawake : s.coordinator = .awake := by
        cases hc : s.coordinator with
        | awake => rfl
        | asleep => exact absurd (hwake.called hc) (by omega)
        | _ => rw [Pool.lending, hc] at hl; cases hl
      refine ⟨[.check], tr ++ [.returned (s.window - 1)], { s with coordinator := .idle }, ?_, by simp⟩
      have hact : (pool α).act s .check = some s.checkWindow := if_pos hawake
      rw [Labelled.exec, hact, Pool.checkWindow, if_pos hr]
      rfl
    · -- A worker step leads to a state with less work.
      have hstep : ∃ a s' es, (pool α).act s a = some (s', es) ∧ s'.work < s.work ∧
          s'.lending = true ∧ s'.window = s.window := by
        cases hb : s.busy with
        | cons x l =>
          obtain ⟨w, -, hw⟩ := List.mem_filterMap.mp (show x ∈ s.busy by rw [hb]; simp)
          cases hrun : s.workers w with
          | running k i job =>
            have hset := settle_settles s w
            refine ⟨.settle w, s.settle w, [.settled k i job w], ?_, ?_, hset.lending.trans hl, hset.window⟩
            · show s.act (.settle w) = _
              rw [Pool.act, hrun]
            · have hlength := (hset.busy hrun).length_eq
              rw [List.length_cons] at hlength
              rw [Pool.work, Pool.work, hset.count, hset.next]
              omega
          | _ => rw [hrun] at hw; cases hw
        | nil =>
          have hlt : s.next < s.count := by
            rw [hb, List.length_nil] at htally
            omega
          obtain ⟨htop, hquit⟩ := worker_ready hwake hl hlt hb 0
          obtain ⟨job, s', hclaim, hc⟩ := hinv.claims (w := 0) (Nat.ne_of_lt hlt)
          refine ⟨.enter 0, s', [.ran (s.window - 1) s.next job 0], ?_, ?_,
            hc.lending', hc.window⟩
          · show s.act (.enter 0) = _
            rw [Pool.act, htop]
            show some (s.enter 0) = _
            rw [Pool.enter, if_neg (by rw [hquit]; decide), if_neg (Nat.ne_of_lt hlt), hclaim]
          · have hlength := (hc.busy (by rw [htop]; rfl)).length_eq
            rw [List.length_cons] at hlength
            rw [Pool.work, Pool.work, hc.count, hc.next]
            omega
      obtain ⟨a, s', es, ha, hwork, hl', hwindow⟩ := hstep
      obtain ⟨as, tr', t, hexec, hret⟩ := ih s'.work (hn ▸ hwork) (h.act ha) hl' rfl
      refine ⟨a :: as, tr', t, ?_, hwindow ▸ hret⟩
      rw [Labelled.exec, ha]
      exact hexec

/-! ### After the end -/

theorem act_over {s : Pool α} (hs : s.Over) (a : PoolAct α) : s.act a = none := by
  have hleft : ∀ w, s.workers w = .exited := fun w => by
    have hw := hs.left w
    cases he : s.workers w with
    | exited => rfl
    | _ => rw [he] at hw; cases hw
  cases a <;> simp [Pool.act, hleft, hs.finished, hs.observing]

/-- The pool is over once it was joined. -/
theorem joined_over {tr : List (PoolEvent α)} {s : Pool α} (h : (pool α).Runs tr s)
    (hj : .joined ∈ tr) : s.Over := by
  refine h.invariant (P := fun tr s => .joined ∈ tr → s.Over) (fun hj => (by cases hj))
    (fun {tr s a s' es} hrun ih ha hj => ?_) hj
  obtain hj | hj := List.mem_append.mp hj
  · have hnone := act_over (ih hj) a
    rw [show s.act a = some (s', es) from ha] at hnone
    cases hnone
  · cases act_moves (pool_inv hrun) ha with
    | joined _ hover => exact hover
    | _ => simp at hj

/-- What may come behind an event: nothing of a window behind its return, and
nothing at all behind the join. -/
def PoolEvent.Before : PoolEvent α → PoolEvent α → Prop
  | .returned k, .ran k' _ _ _ => k ≠ k'
  | .returned k, .settled k' _ _ _ => k ≠ k'
  | .joined, _ => False
  | _, _ => True

theorem run_ordered {tr : List (PoolEvent α)} {s : Pool α} (h : (pool α).Runs tr s) :
    tr.Pairwise PoolEvent.Before := by
  refine h.pairwise fun {tr s a s' es} hrun ha => ?_
  have hinv := pool_inv hrun
  -- A machine that is over takes no step, so no event of the run is a join.
  have hjoin : .joined ∉ tr := fun hj => by
    have hnone := act_over (joined_over hrun hj) a
    rw [show s.act a = some (s', es) from ha] at hnone
    cases hnone
  have hplain : ∀ e' : PoolEvent α, (∀ k, .returned k ∈ tr → PoolEvent.Before (.returned k) e') →
      ∀ e ∈ tr, PoolEvent.Before e e' := by
    intro e' hret e he
    cases e with
    | returned k => exact hret k he
    | joined => exact absurd he hjoin
    | _ => trivial
  cases act_moves hinv ha with
  | quiet _ => simp
  | joined _ _ =>
    refine ⟨fun e he e' he' => hplain e' (fun k _ => ?_) e he, by simp⟩
    obtain rfl := List.mem_singleton.mp he'
    trivial
  | ran w job _ hc =>
    refine ⟨fun e he e' he' => hplain e' (fun k hk => ?_) e he, by simp⟩
    obtain rfl := List.mem_singleton.mp he'
    have hlt := hinv.lent hc.lending
    have hne := (hinv.returned k hk).2 hc.lending
    show k ≠ s.window - 1
    omega
  | settled w k i job hw _ =>
    refine ⟨fun e he e' he' => hplain e' (fun k' hk => ?_) e he, by simp⟩
    obtain rfl := List.mem_singleton.mp he'
    have hcur := hinv.running w k i job hw
    have hlend : s.lending = true := by
      cases hl : s.lending with
      | true => rfl
      | false =>
        have hmem : (i, job, w) ∈ s.busy :=
          List.mem_filterMap.mpr ⟨w, List.mem_finRange w, by rw [hw]; rfl⟩
        rw [(hinv.rest hl).2] at hmem
        cases hmem
    have hne := (hinv.returned k' hk).2 hlend
    show k' ≠ k
    omega
  | empty _ _ =>
    refine ⟨fun e he e' he' => hplain e' (fun k _ => ?_) e he, by simp [PoolEvent.Before]⟩
    obtain rfl | rfl := List.mem_pair.mp he' <;> trivial
  | began _ _ _ =>
    refine ⟨fun e he e' he' => hplain e' (fun k _ => ?_) e he, by simp⟩
    obtain rfl := List.mem_singleton.mp he'
    trivial
  | returned _ _ _ =>
    refine ⟨fun e he e' he' => hplain e' (fun k _ => ?_) e he, by simp⟩
    obtain rfl := List.mem_singleton.mp he'
    trivial

/-! ### The result -/

/-- A window that did not return is the one that is lent. -/
theorem run_opened {tr : List (PoolEvent α)} {s : Pool α} (h : (pool α).Runs tr s) :
    ∀ k < s.window, (∃ jobs, .began k jobs ∈ tr) ∧
      (.returned k ∈ tr ∨ s.lending = true ∧ k + 1 = s.window) := by
  refine h.invariant (P := fun tr s => ∀ k < s.window, (∃ jobs, .began k jobs ∈ tr) ∧
      (.returned k ∈ tr ∨ s.lending = true ∧ k + 1 = s.window))
    (fun k hk => absurd hk (Nat.not_lt_zero k)) fun {tr s a s' es} hrun ih ha k hk => ?_
  have hold : s'.window = s.window → s'.lending = s.lending → (∃ jobs, .began k jobs ∈ tr ++ es) ∧
      (.returned k ∈ tr ++ es ∨ s'.lending = true ∧ k + 1 = s'.window) := fun hw hl => by
    obtain ⟨⟨jobs, hjobs⟩, hret⟩ := ih k (hw ▸ hk)
    rw [hw, hl]
    exact ⟨⟨jobs, List.mem_append_left _ hjobs⟩, hret.imp_left (List.mem_append_left _)⟩
  have hidle : s.coordinator = .idle → k < s.window → (∃ jobs, .began k jobs ∈ tr ++ es) ∧
      .returned k ∈ tr ++ es := fun hs hk => by
    obtain ⟨⟨jobs, hjobs⟩, hret⟩ := ih k hk
    rw [((pool_inv hrun).idle hs).1] at hret
    exact ⟨⟨jobs, List.mem_append_left _ hjobs⟩,
      List.mem_append_left _ (hret.resolve_right fun hl => absurd hl.1 (by decide))⟩
  cases act_moves (pool_inv hrun) ha with
  | quiet hq => exact hold hq.window hq.lending
  | joined hq _ => exact hold hq.window hq.lending
  | ran w job _ hc => exact hold hc.window (hc.lending'.trans hc.lending.symm)
  | settled w k' i job _ hs => exact hold hs.window hs.lending
  | returned _ _ hs' =>
    have hk : k < s.window := by rw [hs'] at hk; exact hk
    obtain ⟨⟨jobs, hjobs⟩, hret⟩ := ih k hk
    refine ⟨⟨jobs, List.mem_append_left _ hjobs⟩, .inl ?_⟩
    obtain hret | ⟨-, hcur⟩ := hret
    · exact List.mem_append_left _ hret
    · exact List.mem_append_right _ (by simp [← hcur])
  | empty hs hs' =>
    have hk : k < s.window + 1 := by rw [hs'] at hk; exact hk
    obtain hk | rfl := Nat.lt_succ_iff_lt_or_eq.mp hk
    · exact (hidle hs hk).imp_right .inl
    · exact ⟨⟨[], by simp⟩, .inl (by simp)⟩
  | began jobs hs hl =>
    rw [hl.window] at hk
    obtain hk | rfl := Nat.lt_succ_iff_lt_or_eq.mp hk
    · exact (hidle hs hk).imp_right .inl
    · exact ⟨⟨jobs, by simp⟩, .inr ⟨hl.lending, hl.window.symm⟩⟩

/-- Nothing runs while no window is lent. -/
theorem PoolInv.ended {tr : List (PoolEvent α)} {s : Pool α} (h : PoolInv tr s) {k : ℕ}
    (hk : ¬(s.lending = true ∧ k + 1 = s.window)) : (rans k tr).Perm (settles k tr) := by
  have hold := h.settled k
  by_cases hcur : k + 1 = s.window
  · have hlend : s.lending = false := by
      cases hl : s.lending with
      | false => rfl
      | true => exact absurd ⟨hl, hcur⟩ hk
    rw [if_pos hcur, (h.rest hlend).2, List.append_nil] at hold
    exact hold
  · rw [if_neg hcur, List.append_nil] at hold
    exact hold

/-- In every run the jobs of a window are run in the order of the array, each by
one worker and once; a window that returned has run all of them to their end,
and nothing of it comes behind the return; a window that did not can be brought
to its end; no worker reads an array that is not lent; and the pool is joined
with every run ended. -/
theorem pool_settles_once {tr : List (PoolEvent α)} {s : Pool α} (h : (pool α).Runs tr s) :
    (∀ k jobs, .began k jobs ∈ tr →
      (rans k tr).map (fun x => (x.2.1, x.1)) <+: jobs.zipIdx ∧
      (.returned k ∈ tr → (rans k tr).map (fun x => (x.2.1, x.1)) = jobs.zipIdx ∧
        (rans k tr).Perm (settles k tr)) ∧
      (.returned k ∉ tr → ∃ as tr' s', (pool α).exec as tr s = some (tr', s') ∧ .returned k ∈ tr')) ∧
    (∀ k, rans k tr ≠ [] → ∃ jobs, .began k jobs ∈ tr) ∧
    tr.Pairwise PoolEvent.Before ∧ .astray ∉ tr ∧
    (.joined ∈ tr → ∀ k, (rans k tr).Perm (settles k tr)) := by
  have hinv := pool_inv h
  have hreturned : ∀ k, .returned k ∈ tr → ¬(s.lending = true ∧ k + 1 = s.window) :=
    fun k hret hc => (hinv.returned k hret).2 hc.1 hc.2
  refine ⟨fun k jobs hk => ⟨?_, fun hret => ⟨?_, hinv.ended (hreturned k hret)⟩, fun hret => ?_⟩,
    fun k hk => ?_, run_ordered h, hinv.sane, fun hj k => hinv.ended fun hc => ?_⟩
  · rw [hinv.order k jobs hk]
    exact List.take_prefix _ _
  · rw [hinv.order k jobs hk, if_neg (hreturned k hret)]
    exact List.take_of_length_le (by simp)
  · obtain ⟨hlend, hcur⟩ := (run_opened h k (hinv.began k jobs hk)).2.resolve_left hret
    obtain ⟨as, tr', s', hexec, hin⟩ := window_ends h hlend
    rw [← hcur] at hin
    exact ⟨as, tr', s', hexec, hin⟩
  · exact (run_opened h k (Nat.lt_of_not_le fun hle => hk (hinv.fresh k hle))).1
  · rw [Pool.lending, (joined_over h hj).finished] at hc
    exact absurd hc.1 (by decide)

/-- Two jobs, taken by two workers and settled the other way round. -/
def sampleRun : List (PoolEvent Char) :=
  [.began 0 ['a', 'b'], .ran 0 0 'a' 3, .ran 0 1 'b' 5, .settled 0 1 'b' 5, .settled 0 0 'a' 3, .returned 0]

/-- A worker sleeps and is roused in between, and a signal arrives. -/
theorem pool_settles_once_sample : ∃ s, (pool Char).Runs sampleRun s ∧
    (rans 0 sampleRun).map (fun x => (x.2.1, x.1)) = ['a', 'b'].zipIdx ∧
    (rans 0 sampleRun).Perm (settles 0 sampleRun) := by
  obtain ⟨s, hs⟩ : ∃ s, (pool Char).exec [.enter 7, .begin ['a', 'b'], .enter 3, .observe [15], .enter 5,
      .settle 5, .enter 5, .rouseCoordinator, .check, .settle 3, .check] [] {} =
      some (sampleRun, s) := ⟨_, rfl⟩
  have hrun := Labelled.exec_runs (Labelled.Runs.start (M := pool Char)) hs
  exact ⟨s, hrun, ((pool_settles_once hrun).1 0 ['a', 'b'] (by decide)).2.1 (by decide)⟩

end Windows

end JaroFilter
