/-
  File:      HseMultithreading/Sync/Worker.lean
  Subject:   `Worker` (`condition_variable/condition_variable_any.cpp`): a thread that takes tasks
             in batches from a vector behind a mutex, and the threads that add them.

  `AddTask` notifies after it has released `m_mtx`. `WorkerThread` looks at the stop token at the
  top of its loop only; the wait inside the loop asks for tasks and for nothing else, so a stop
  request that finds the worker on its way into the wait, with no task left, is never seen.

  * `Worker`, `Worker.step` -- any number of threads inside `AddTask` and the loop of the worker:
    every acquisition and release of `m_mtx`, `push_back`, `notify_one`, the test of the predicate,
    the wait and its wake-ups, the swap, one execution a task and the look at the stop token are
    steps.
  * `WorkerInv` -- who owns `m_mtx`, where the tasks are, and who is about to notify a worker that
    sleeps with tasks to do.
  * **`worker_keeps_tasks`** -- every task is executed once and in order, and no notification is
    missed.
  * **`destructor_hangs_iff`** -- the stop request of the destructor leads to a worker that sleeps
    for ever exactly when it comes with `m_tasks` empty and the worker between its look at the stop
    token and the swap.
  * `destructor_hangs` -- no task at all, and the worker has gone to sleep.
-/
import HseMultithreading.Lib.Run
import HseMultithreading.Lib.Token

namespace HseMultithreading.Sync

open StepSystem TokenRule

/-! ## 1. The machine -/

/-- `int`. -/
abbrev Task := Int32

/-- What a thread inside `AddTask` does NEXT. -/
inductive AdderPc where
  | idle
  | lock (task : Task)
  | pushBack (task : Task)
  | unlock
  | notifyOne
  deriving DecidableEq

/-- What `WorkerThread` does NEXT. At `waiting` it sleeps and nobody has notified it. -/
inductive WorkerPc where
  | stopRequested
  | lock
  | test
  | wait
  | waiting
  | woken
  | swap
  | unlock
  | execute
  | exited
  deriving DecidableEq

/-- Who may own `m_mtx`. -/
inductive Agent where
  | worker
  | adder (t : ℕ)
  deriving DecidableEq

/-- The owner of `m_mtx`, `m_tasks`, the rest of the worker's own vector `tasks`, the stop token and
    where each thread stands. Beside them an observer keeps what was pushed and executed. -/
structure Worker where
  mtx : Option Agent
  tasks : List Task
  batch : List Task
  stop : Bool
  worker : WorkerPc
  adders : ℕ → AdderPc
  added : List Task
  executed : List Task

/-- After the constructor. -/
def Worker.start : Worker := ⟨none, [], [], false, .stopRequested, fun _ => .idle, [], []⟩

def Worker.goto (s : Worker) (t : ℕ) (pc : AdderPc) : Worker :=
  { s with adders := Function.update s.adders t pc }

/-- `a` gets `m_mtx`, when it is free. -/
def Worker.acquire (s : Worker) (a : Agent) : Option Worker :=
  match s.mtx with
  | none => some { s with mtx := some a }
  | some _ => none

/-- `notify_one`: the worker is the only thread that waits. -/
def Worker.notifyOne (s : Worker) : Worker :=
  if s.worker = .waiting then { s with worker := .woken } else s

/-- The next step of thread `t` inside `AddTask`. -/
def Worker.adderStep (s : Worker) (t : ℕ) : AdderPc → Option Worker
  | .idle => none
  | .lock task => (s.acquire (.adder t)).map (·.goto t (.pushBack task))
  | .pushBack task =>
    some ({ s with tasks := s.tasks ++ [task], added := s.added ++ [task] }.goto t .unlock)
  | .unlock => some ({ s with mtx := none }.goto t .notifyOne)
  | .notifyOne => some (s.notifyOne.goto t .idle)

/-- The next step of `WorkerThread`. The wait releases `m_mtx` and falls asleep in one step; a woken
    worker gets `m_mtx` back and tests again. -/
def Worker.workerStep (s : Worker) : WorkerPc → Option Worker
  | .stopRequested =>
    if s.stop then some { s with worker := .exited }
    else some { s with worker := .lock, batch := [] }
  | .lock => (s.acquire .worker).map fun s => { s with worker := .test }
  | .test => some { s with worker := if s.tasks = [] then .wait else .swap }
  | .wait => some { s with mtx := none, worker := .waiting }
  | .waiting => none
  | .woken => (s.acquire .worker).map fun s => { s with worker := .test }
  | .swap => some { s with tasks := s.batch, batch := s.tasks, worker := .unlock }
  | .unlock => some { s with mtx := none, worker := .execute }
  | .execute =>
    match s.batch with
    | [] => some { s with worker := .stopRequested }
    | task :: rest => some { s with batch := rest, executed := s.executed ++ [task] }
  | .exited => none

/-- `spurious` is a wake-up nobody has asked for, `requestStop` what `~Worker` does before it joins
    the worker. -/
inductive WorkerAction where
  | addTask (t : ℕ) (task : Task)
  | adder (t : ℕ)
  | worker
  | spurious
  | requestStop

def Worker.step (s : Worker) : WorkerAction → Option Worker
  | .addTask t task => if s.adders t = .idle then some (s.goto t (.lock task)) else none
  | .adder t => s.adderStep t (s.adders t)
  | .worker => s.workerStep s.worker
  | .spurious => if s.worker = .waiting then some { s with worker := .woken } else none
  | .requestStop => some { s with stop := true }

/-- No call of `AddTask` is in progress. -/
def Worker.Quiet (s : Worker) : Prop := ∀ t, s.adders t = .idle

/-! ## 2. The invariant -/

/-- The thread owns `m_mtx`. -/
def AdderPc.inMtx : AdderPc → Bool
  | .pushBack _ | .unlock => true
  | _ => false

@[inherit_doc AdderPc.inMtx]
def WorkerPc.inMtx : WorkerPc → Bool
  | .test | .wait | .swap | .unlock => true
  | _ => false

/-- Whether a thread stands where it owns `m_mtx`. -/
def Worker.inMtx (s : Worker) : Agent → Bool
  | .worker => s.worker.inMtx
  | .adder t => (s.adders t).inMtx

/-- The thread has pushed a task and not notified yet. -/
def AdderPc.owesNotify : AdderPc → Bool
  | .unlock | .notifyOne => true
  | _ => false

/-- The worker may have tasks of its own. -/
def WorkerPc.hasBatch : WorkerPc → Bool
  | .unlock | .execute => true
  | _ => false

/-- **The invariant of the worker and the threads that add tasks.** -/
structure WorkerInv (s : Worker) : Prop where
  token : Token id s.inMtx s.mtx
  order : s.executed ++ s.batch ++ s.tasks = s.added
  batch : s.worker.hasBatch = false → s.batch = []
  wait : s.worker = .wait → s.tasks = []
  waiting : s.worker = .waiting → s.tasks ≠ [] → ∃ t, (s.adders t).owesNotify = true

section Steps

variable {s s' : Worker} {t : ℕ}

theorem workerInv_start : WorkerInv .start where
  token a := by cases a <;> exact ⟨nofun, nofun⟩
  order := rfl
  batch _ := rfl
  wait := nofun
  waiting := nofun

theorem inMtx_goto (s : Worker) (t : ℕ) (pc : AdderPc) :
    (s.goto t pc).inMtx = Function.update s.inMtx (.adder t) pc.inMtx := by
  funext a
  cases a with
  | worker => rw [Function.update_of_ne (show Agent.worker ≠ .adder t from nofun)]; rfl
  | adder t' =>
      show (Function.update s.adders t pc t').inMtx = _
      by_cases e : t' = t
      · rw [e, Function.update_self, Function.update_self]
      · rw [Function.update_of_ne e, Function.update_of_ne (fun h => e (Agent.adder.inj h))]
        rfl

theorem inMtx_worker (h : s'.adders = s.adders) :
    s'.inMtx = Function.update s.inMtx .worker s'.worker.inMtx := by
  funext a
  cases a with
  | worker => rw [Function.update_self]; rfl
  | adder t =>
      rw [Function.update_of_ne (show Agent.adder t ≠ .worker from nofun), Worker.inMtx, h]
      rfl

/-- Only one thread stands where `m_mtx` is owned. -/
theorem WorkerInv.exclusive (h : WorkerInv s) (ha : (s.adders t).inMtx = true)
    (hw : s.worker.inMtx = true) : False := by
  have e : Agent.adder t = .worker :=
    h.token.unique (show id (s.inMtx (.adder t)) = true from ha) hw
  cases e

/-- A step of the worker passes `m_mtx`. -/
theorem WorkerInv.worker_passes (h : WorkerInv s) (ha : s'.adders = s.adders)
    (hpass : Pass id .worker s.worker.inMtx s'.worker.inMtx s.mtx s'.mtx) :
    Token id s'.inMtx s'.mtx := by
  rw [inMtx_worker ha]
  exact h.token.pass hpass

theorem Worker.acquire_eq {a : Agent} (h : s.acquire a = some s') :
    s.mtx = none ∧ s' = { s with mtx := some a } := by
  unfold Worker.acquire at h
  cases hm : s.mtx with
  | none => rw [hm] at h; exact ⟨rfl, (Option.some.inj h).symm⟩
  | some o => rw [hm] at h; cases h

/-- A step of an adder that leaves the tasks and the worker as they are. -/
theorem WorkerInv.adder_moves (h : WorkerInv s) {pc : AdderPc} {mtx : Option Agent}
    (hpass : Pass id (.adder t) (s.inMtx (.adder t)) pc.inMtx s.mtx mtx)
    (howes : s.worker = .waiting → (s.adders t).owesNotify = true → pc.owesNotify = true) :
    WorkerInv ({ s with mtx := mtx }.goto t pc) where
  token := by
    rw [inMtx_goto]
    exact h.token.pass hpass
  order := h.order
  batch := h.batch
  wait := h.wait
  waiting hw hne := by
    obtain ⟨t', ht'⟩ := h.waiting hw hne
    refine ⟨t', ?_⟩
    show (Function.update s.adders t pc t').owesNotify = true
    by_cases e : t' = t
    · rw [e, Function.update_self]
      exact howes hw (e ▸ ht')
    · rw [Function.update_of_ne e]
      exact ht'

/-- A notified worker no longer sleeps. -/
theorem WorkerInv.notified (h : WorkerInv s) :
    WorkerInv s.notifyOne ∧ s.notifyOne.worker ≠ .waiting := by
  unfold Worker.notifyOne
  split
  next hw =>
    refine ⟨⟨?_, h.order, fun _ => h.batch (by rw [hw]; rfl), nofun, nofun⟩, nofun⟩
    exact h.worker_passes rfl (.keep _ (by rw [hw]; rfl))
  next hw => exact ⟨h, hw⟩

theorem WorkerInv.adder_step (h : WorkerInv s) {pc : AdderPc} (hpc : s.adders t = pc)
    (hs : s.adderStep t pc = some s') : WorkerInv s' := by
  have hheld : s.inMtx (.adder t) = pc.inMtx := congrArg AdderPc.inMtx hpc
  cases pc with
  | idle => cases hs
  | lock task =>
      obtain ⟨r, hr, rfl⟩ := Option.map_eq_some_iff.mp hs
      obtain ⟨hfree, rfl⟩ := Worker.acquire_eq hr
      refine h.adder_moves ?_ fun _ howes => absurd howes (by rw [hpc]; nofun)
      rw [hfree]
      exact .take rfl
  | pushBack task =>
      obtain rfl := Option.some.inj hs
      refine ⟨?_, ?_, h.batch, fun hw => ?_, fun _ _ => ⟨t, ?_⟩⟩
      · rw [inMtx_goto]
        exact h.token.pass (.keep _ hheld.symm)
      · show s.executed ++ s.batch ++ (s.tasks ++ [task]) = s.added ++ [task]
        rw [← List.append_assoc, h.order]
      · -- The worker at the wait owns the mutex.
        refine (h.exclusive (t := t) (by rw [hpc]; rfl) ?_).elim
        rw [show s.worker = .wait from hw]
        rfl
      · show (Function.update s.adders t .unlock t).owesNotify = true
        rw [Function.update_self]
        rfl
  | unlock =>
      obtain rfl := Option.some.inj hs
      have hown : s.mtx = some (.adder t) := (h.token (.adder t)).mp hheld
      refine h.adder_moves ?_ fun _ _ => rfl
      rw [hown]
      exact .drop rfl
  | notifyOne =>
      obtain rfl := Option.some.inj hs
      obtain ⟨h', hawake⟩ := h.notified
      have hsame : s.notifyOne.adders = s.adders := by
        unfold Worker.notifyOne
        split <;> rfl
      refine h'.adder_moves (.keep _ ?_) fun hw => absurd hw hawake
      show _ = (s.notifyOne.adders t).inMtx
      rw [hsame, hpc]
      rfl

/-- The worker gets `m_mtx`, before its wait or after it. -/
theorem WorkerInv.worker_acquires {r : Worker} (h : WorkerInv s)
    (hbatch : s.worker.hasBatch = false) (hr : s.acquire .worker = some r) :
    WorkerInv { r with worker := .test } := by
  obtain ⟨hfree, rfl⟩ := Worker.acquire_eq hr
  refine ⟨h.worker_passes rfl ?_, h.order, fun _ => h.batch hbatch, nofun, nofun⟩
  rw [hfree]
  exact .take rfl

theorem WorkerInv.worker_step (h : WorkerInv s) {pc : WorkerPc} (hpc : s.worker = pc)
    (hs : s.workerStep pc = some s') : WorkerInv s' := by
  have hheld : s.worker.inMtx = pc.inMtx := congrArg WorkerPc.inMtx hpc
  have hbatch : pc.hasBatch = false → s.batch = [] := fun hno => h.batch (hpc ▸ hno)
  cases pc with
  | stopRequested =>
      simp only [Worker.workerStep] at hs
      split at hs <;> obtain rfl := Option.some.inj hs
      · exact ⟨h.worker_passes rfl (.keep _ hheld.symm), h.order, fun _ => hbatch rfl, nofun, nofun⟩
      · have horder := h.order
        rw [hbatch rfl] at horder
        exact ⟨h.worker_passes rfl (.keep _ hheld.symm), horder, fun _ => rfl, nofun, nofun⟩
  | lock =>
      obtain ⟨r, hr, rfl⟩ := Option.map_eq_some_iff.mp hs
      exact h.worker_acquires (by rw [hpc]; rfl) hr
  | test =>
      obtain rfl := Option.some.inj hs
      split
      next hempty =>
        exact ⟨h.worker_passes rfl (.keep _ hheld.symm), h.order, fun _ => hbatch rfl,
          fun _ => hempty, nofun⟩
      next =>
        exact ⟨h.worker_passes rfl (.keep _ hheld.symm), h.order, fun _ => hbatch rfl, nofun, nofun⟩
  | wait =>
      obtain rfl := Option.some.inj hs
      have hown : s.mtx = some .worker := (h.token .worker).mp hheld
      have hempty := h.wait hpc
      refine ⟨h.worker_passes rfl ?_, h.order, fun _ => hbatch rfl, nofun,
        fun _ hne => absurd hempty hne⟩
      rw [hown]
      exact .drop rfl
  | waiting => cases hs
  | woken =>
      obtain ⟨r, hr, rfl⟩ := Option.map_eq_some_iff.mp hs
      exact h.worker_acquires (by rw [hpc]; rfl) hr
  | swap =>
      obtain rfl := Option.some.inj hs
      refine ⟨h.worker_passes rfl (.keep _ hheld.symm), ?_, nofun, nofun, nofun⟩
      have horder := h.order
      show s.executed ++ s.tasks ++ s.batch = s.added
      rw [hbatch rfl, List.append_nil] at horder ⊢
      exact horder
  | unlock =>
      obtain rfl := Option.some.inj hs
      have hown : s.mtx = some .worker := (h.token .worker).mp hheld
      refine ⟨h.worker_passes rfl ?_, h.order, nofun, nofun, nofun⟩
      rw [hown]
      exact .drop rfl
  | execute =>
      simp only [Worker.workerStep] at hs
      split at hs <;> obtain rfl := Option.some.inj hs
      next hdone =>
        exact ⟨h.worker_passes rfl (.keep _ hheld.symm), h.order, fun _ => hdone, nofun, nofun⟩
      next task rest hnext =>
        refine ⟨h.token, ?_, ?_, ?_, ?_⟩
        · have horder := h.order
          rw [hnext] at horder
          show s.executed ++ [task] ++ rest ++ s.tasks = s.added
          rw [List.append_assoc s.executed]
          exact horder
        all_goals
          intro hw
          rw [show s.worker = .execute from hpc] at hw
          cases hw
  | exited => cases hs

/-- **Every step keeps the invariant.** -/
theorem WorkerInv.step (h : WorkerInv s) {a : WorkerAction} (hs : s.step a = some s') :
    WorkerInv s' := by
  cases a with
  | addTask t task =>
      simp only [Worker.step] at hs
      split at hs
      next hidle =>
        obtain rfl := Option.some.inj hs
        refine h.adder_moves (.keep _ ?_) fun _ howes => absurd howes (by rw [hidle]; nofun)
        rw [Worker.inMtx, hidle]
        rfl
      next => cases hs
  | adder t => exact h.adder_step rfl hs
  | worker => exact h.worker_step rfl hs
  | spurious =>
      simp only [Worker.step] at hs
      split at hs
      next hw =>
        obtain rfl := Option.some.inj hs
        have hwoken := h.notified.1
        rw [Worker.notifyOne, if_pos hw] at hwoken
        exact hwoken
      next => cases hs
  | requestStop =>
      obtain rfl := Option.some.inj hs
      exact ⟨h.token, h.order, h.batch, h.wait, h.waiting⟩

end Steps

theorem workerInv_reach {C : Worker → WorkerAction → Prop} {s : Worker}
    (h : ReachWhere Worker.step C .start s) : WorkerInv s :=
  h.invariant workerInv_start fun _ _ _ hI _ hs => hI.step hs

/-! ## 3. Every task, once and in order -/

/-- **What was executed, the rest of the batch and `m_tasks` are what was pushed, in order; and with
    tasks to do and no `AddTask` in progress the worker does not sleep.** -/
theorem worker_keeps_tasks {s : Worker} (h : Reach Worker.step .start s) :
    s.executed ++ s.batch ++ s.tasks = s.added ∧
      (s.tasks ≠ [] → s.Quiet → s.worker ≠ .waiting) := by
  have hI := workerInv_reach h
  refine ⟨hI.order, fun hne hquiet hw => ?_⟩
  obtain ⟨t, ht⟩ := hI.waiting hw hne
  rw [hquiet t] at ht
  cases ht

/-- Three tasks: the worker has taken two of them at once and executed one, the third came
    meanwhile. -/
def inBatches : List WorkerAction :=
  [WorkerAction.addTask 0 10, .addTask 1 4] ++ List.replicate 4 (WorkerAction.adder 0) ++
    List.replicate 4 (WorkerAction.adder 1) ++ List.replicate 6 WorkerAction.worker ++
    [WorkerAction.addTask 0 5] ++ List.replicate 4 (WorkerAction.adder 0)

theorem worker_keeps_tasks_batch :
    ∃ s, Reach Worker.step .start s ∧ s.executed = [10] ∧ s.batch = [4] ∧ s.tasks = [5] ∧
      s.executed ++ s.batch ++ s.tasks = s.added ∧
      (s.tasks ≠ [] → s.Quiet → s.worker ≠ .waiting) := by
  have hrun : (run (guarded Worker.step fun _ _ => true) .start inBatches).map
      (fun s => decide (s.executed = [10] ∧ s.batch = [4] ∧ s.tasks = [5])) = some true := by
    decide +kernel
  obtain ⟨s, hs, hp⟩ := reach_of_run Worker.step (fun _ _ => true) .start inBatches _ hrun
  obtain ⟨hexecuted, hbatch, htasks⟩ := of_decide_eq_true hp
  have h := worker_keeps_tasks hs.reach
  exact ⟨s, hs.reach, hexecuted, hbatch, htasks, h.1, h.2⟩

/-! ## 4. The destructor -/

/-- **The lifetime of a worker**: the destructor starts when every `AddTask` has returned, and no
    other call follows. -/
def Worker.Lifetime (s : Worker) : WorkerAction → Prop
  | .addTask _ _ => s.stop = false
  | .requestStop => s.stop = false ∧ s.Quiet
  | _ => True

/-- **The worker sleeps and nobody is left to notify it**: stop has been requested, no `AddTask` is
    in progress and there is no task. -/
structure Worker.Hung (s : Worker) : Prop where
  stop : s.stop = true
  quiet : s.Quiet
  worker : s.worker = .waiting
  tasks : s.tasks = []

/-- The worker has looked at the stop token and not yet swapped. -/
def WorkerPc.beforeSwap : WorkerPc → Bool
  | .lock | .test | .wait | .waiting | .woken => true
  | _ => false

/-- **The worker is on its way into the wait, and there is nothing to do.** -/
def Worker.Trapped (s : Worker) : Prop := s.worker.beforeSwap = true ∧ s.tasks = []

section Destructor

variable {s s' : Worker}

/-- A step after the stop request is one of the worker, or a wake-up. -/
theorem stopped_step (hstop : s.stop = true) (hquiet : s.Quiet) {a : WorkerAction}
    (hc : s.Lifetime a) (hs : s.step a = some s') :
    s.workerStep s.worker = some s' ∨ s.worker = .waiting ∧ s' = { s with worker := .woken } := by
  cases a with
  | addTask t task => rw [show s.stop = false from hc] at hstop; cases hstop
  | adder t => rw [Worker.step, hquiet t] at hs; cases hs
  | worker => exact .inl hs
  | spurious =>
      simp only [Worker.step] at hs
      split at hs
      next hw => exact .inr ⟨hw, (Option.some.inj hs).symm⟩
      next => cases hs
  | requestStop => rw [hc.1] at hstop; cases hstop

/-- The worker's own steps leave the stop token and the other threads alone. -/
theorem workerStep_frame {pc : WorkerPc} (hs : s.workerStep pc = some s') :
    s'.stop = s.stop ∧ s'.adders = s.adders := by
  have hgot : ∀ r, (s.acquire .worker).map (fun s => { s with worker := .test }) = some r →
      r.stop = s.stop ∧ r.adders = s.adders := by
    intro r hr
    obtain ⟨q, hq, rfl⟩ := Option.map_eq_some_iff.mp hr
    obtain ⟨-, rfl⟩ := Worker.acquire_eq hq
    exact ⟨rfl, rfl⟩
  cases pc with
  | stopRequested =>
      simp only [Worker.workerStep] at hs
      split at hs <;> obtain rfl := Option.some.inj hs <;> exact ⟨rfl, rfl⟩
  | lock => exact hgot s' hs
  | woken => exact hgot s' hs
  | execute =>
      simp only [Worker.workerStep] at hs
      split at hs <;> obtain rfl := Option.some.inj hs <;> exact ⟨rfl, rfl⟩
  | waiting => cases hs
  | exited => cases hs
  | test => obtain rfl := Option.some.inj hs; exact ⟨rfl, rfl⟩
  | wait => obtain rfl := Option.some.inj hs; exact ⟨rfl, rfl⟩
  | swap => obtain rfl := Option.some.inj hs; exact ⟨rfl, rfl⟩
  | unlock => obtain rfl := Option.some.inj hs; exact ⟨rfl, rfl⟩

/-- **After the stop request** a worker is trapped exactly if it was. -/
theorem trapped_step (hstop : s.stop = true)
    (hs : s.workerStep s.worker = some s') : s'.Trapped ↔ s.Trapped := by
  unfold Worker.Trapped
  cases hpc : s.worker <;> rw [hpc] at hs
  case stopRequested =>
    rw [Worker.workerStep, if_pos hstop] at hs
    obtain rfl := Option.some.inj hs
    exact ⟨nofun, nofun⟩
  case test =>
    obtain rfl := Option.some.inj hs
    refine ⟨fun h => ⟨rfl, h.2⟩, fun h => ⟨?_, h.2⟩⟩
    rw [if_pos h.2]
    rfl
  case swap =>
    obtain rfl := Option.some.inj hs
    exact ⟨nofun, nofun⟩
  case execute =>
    simp only [Worker.workerStep] at hs
    split at hs <;> obtain rfl := Option.some.inj hs
    · exact ⟨nofun, nofun⟩
    · rw [show s.worker = .execute from hpc]
  case waiting => cases hs
  case exited => cases hs
  case wait => obtain rfl := Option.some.inj hs; exact ⟨fun h => ⟨rfl, h.2⟩, fun h => ⟨rfl, h.2⟩⟩
  case unlock => obtain rfl := Option.some.inj hs; exact ⟨nofun, nofun⟩
  all_goals
    obtain ⟨r, hr, rfl⟩ := Option.map_eq_some_iff.mp hs
    obtain ⟨-, rfl⟩ := Worker.acquire_eq hr
    exact ⟨fun h => ⟨rfl, h.2⟩, fun h => ⟨rfl, h.2⟩⟩

/-- A whole run after the stop request. -/
theorem trapped_reach (hstop : s.stop = true) (hquiet : s.Quiet)
    (h : ReachWhere Worker.step Worker.Lifetime s s') :
    s'.stop = true ∧ s'.Quiet ∧ (s'.Trapped ↔ s.Trapped) := by
  induction h with
  | start => exact ⟨hstop, hquiet, Iff.rfl⟩
  | next r r' a _ hc hs ih =>
      obtain ⟨hstop', hquiet', htrap⟩ := ih
      rcases stopped_step hstop' hquiet' hc hs with hw | ⟨hw, rfl⟩
      · obtain ⟨hsame, hadders⟩ := workerStep_frame hw
        refine ⟨hsame.trans hstop', fun t => ?_, (trapped_step hstop' hw).trans htrap⟩
        rw [hadders]
        exact hquiet' t
      · refine ⟨hstop', hquiet', Iff.trans ?_ htrap⟩
        rw [Worker.Trapped, Worker.Trapped, hw]
        rfl

/-- Where nobody stands inside `m_mtx`, it is free. -/
theorem WorkerInv.mtx_free (h : WorkerInv s) (hquiet : s.Quiet) (hw : s.worker.inMtx = false) :
    s.mtx = none := by
  cases hm : s.mtx with
  | none => rfl
  | some a =>
      have hheld : s.inMtx a = true := (h.token a).mpr hm
      cases a with
      | worker => rw [Worker.inMtx, hw] at hheld; cases hheld
      | adder t => rw [Worker.inMtx, hquiet t] at hheld; cases hheld

theorem lifetime_worker (hs : s.step .worker = some s') :
    ReachWhere Worker.step Worker.Lifetime s s' :=
  .single (a := .worker) trivial hs

/-- A worker that tests the predicate and finds no task goes to sleep. -/
theorem test_hangs (hstop : s.stop = true) (hquiet : s.Quiet) (hw : s.worker = .test)
    (htasks : s.tasks = []) :
    ∃ r, ReachWhere Worker.step Worker.Lifetime s r ∧ r.Hung := by
  have htest : s.step .worker = some { s with worker := .wait } := by
    simp only [Worker.step, hw, Worker.workerStep, htasks, if_pos]
  have hwait : Worker.step { s with worker := .wait } .worker =
      some { s with mtx := none, worker := .waiting } := rfl
  exact ⟨_, (lifetime_worker htest).trans (lifetime_worker hwait), hstop, hquiet, rfl, htasks⟩

/-- **A trapped worker goes to sleep**, when nobody disturbs it. -/
theorem trapped_hangs (hI : WorkerInv s) (hstop : s.stop = true) (hquiet : s.Quiet)
    (h : s.Trapped) : ∃ r, ReachWhere Worker.step Worker.Lifetime s r ∧ r.Hung := by
  obtain ⟨hpc, htasks⟩ := h
  have hacquire : s.worker.inMtx = false →
      s.acquire .worker = some { s with mtx := some .worker } := by
    intro hout
    rw [Worker.acquire, hI.mtx_free hquiet hout]
  cases hw : s.worker <;> rw [hw] at hpc <;> try cases hpc
  case test => exact test_hangs hstop hquiet hw htasks
  case wait =>
    have hwait : s.step .worker = some { s with mtx := none, worker := .waiting } := by
      simp only [Worker.step, hw, Worker.workerStep]
    exact ⟨_, lifetime_worker hwait, hstop, hquiet, rfl, htasks⟩
  case waiting => exact ⟨s, .start, hstop, hquiet, hw, htasks⟩
  all_goals
    have hgot : s.step .worker = some { s with mtx := some .worker, worker := .test } := by
      simp only [Worker.step, hw, Worker.workerStep, hacquire (by rw [hw]; rfl), Option.map_some]
    obtain ⟨r, hr, hung⟩ := test_hangs
      (s := { s with mtx := some .worker, worker := .test }) hstop hquiet rfl htasks
    exact ⟨r, (lifetime_worker hgot).trans hr, hung⟩

end Destructor

/-- **The destructor can hang exactly when its stop request finds `m_tasks` empty and the worker
    between its look at the stop token and the swap**, and then the worker never ends. -/
theorem destructor_hangs_iff {s s' : Worker} (h : ReachWhere Worker.step Worker.Lifetime .start s)
    (hc : s.Lifetime .requestStop) (hs : s.step .requestStop = some s') :
    ((∃ r, ReachWhere Worker.step Worker.Lifetime s' r ∧ r.Hung) ↔ s.Trapped) ∧
      (s.Trapped → ∀ r, ReachWhere Worker.step Worker.Lifetime s' r → r.worker ≠ .exited) := by
  have hI := (workerInv_reach h).step hs
  obtain rfl := Option.some.inj hs
  have hreach : ∀ r, ReachWhere Worker.step Worker.Lifetime { s with stop := true } r →
      (r.Trapped ↔ s.Trapped) :=
    fun r hr => (trapped_reach (s := { s with stop := true }) rfl hc.2 hr).2.2
  refine ⟨⟨fun ⟨r, hr, hung⟩ => ?_, fun htrap => trapped_hangs hI rfl hc.2 htrap⟩,
    fun htrap r hr hexited => ?_⟩
  · refine (hreach r hr).mp ⟨?_, hung.tasks⟩
    rw [hung.worker]
    rfl
  · have hpc := ((hreach r hr).mpr htrap).1
    rw [hexited] at hpc
    cases hpc

/-- The worker slept, and thread 0 has added a task and woken it. -/
def Worker.wokenByTask : Worker := ⟨none, [10], [], false, .woken, fun _ => .idle, [10], []⟩

/-- Not the stop request. -/
def WorkerAction.goesOn : WorkerAction → Bool
  | .requestStop => false
  | _ => true

theorem reach_wokenByTask : ReachWhere Worker.step Worker.Lifetime .start .wokenByTask := by
  have hrun : run (guarded Worker.step fun s a => !s.stop && a.goesOn) .start
      (List.replicate 4 .worker ++ [.addTask 0 10, .adder 0, .adder 0, .adder 0, .adder 0]) =
      some .wokenByTask := by
    simp [run, guarded, List.replicate, Worker.start, Worker.wokenByTask, Worker.step, Worker.goto,
      Worker.workerStep, Worker.adderStep, Worker.acquire, Worker.notifyOne, WorkerAction.goesOn]
  refine (reach_guarded (reach_run hrun)).mono fun s a hc => ?_
  obtain ⟨hstop, hgoes⟩ := Bool.and_eq_true_iff.mp hc
  cases a with
  | addTask t task => exact (Bool.not_eq_true' _).mp hstop
  | requestStop => cases hgoes
  | adder t | worker | spurious => trivial

/-- **A stop request with a task queued**: the worker stands between its look at the token and the
    swap, and it does not hang. -/
theorem destructor_hangs_iff_taskQueued :
    ReachWhere Worker.step Worker.Lifetime .start .wokenByTask ∧
      Worker.wokenByTask.Lifetime .requestStop ∧ Worker.wokenByTask.worker.beforeSwap = true ∧
      Worker.wokenByTask.tasks = [10] ∧
      ∀ r, ReachWhere Worker.step Worker.Lifetime { Worker.wokenByTask with stop := true } r →
        ¬ r.Hung := by
  have hquiet : Worker.wokenByTask.Lifetime .requestStop := ⟨rfl, fun _ => rfl⟩
  refine ⟨reach_wokenByTask, hquiet, rfl, rfl, fun r hr hung => ?_⟩
  have htrap := (destructor_hangs_iff reach_wokenByTask hquiet rfl).1.mp ⟨r, hr, hung⟩
  cases htrap.2

/-- **No task at all**: the worker waits, the destructor requests stop, and the worker sleeps on. -/
theorem destructor_hangs :
    ∃ s, ReachWhere Worker.step Worker.Lifetime .start s ∧ s.Hung := by
  have h1 := lifetime_worker (s := .start) rfl
  have h2 := h1.trans (lifetime_worker rfl)
  have h3 := h2.trans (lifetime_worker rfl)
  have h4 := h3.trans (lifetime_worker rfl)
  exact ⟨_, h4.next _ _ .requestStop ⟨rfl, fun _ => rfl⟩ rfl, rfl, fun _ => rfl, rfl, rfl⟩

end HseMultithreading.Sync
