/-
  File:      HseMultithreading/Sync/Throwing.lean
  Subject:   A TASK THAT THROWS in `Worker::WorkerThread`: what the exception does to the rest of
             the batch.

  The swap takes all of `m_tasks` into the local vector `tasks` before any task is executed. The
  `try` block is around the whole batch, so an exception leaves the loop over `tasks`, destroys the
  vector and is caught; the tasks behind the one that has thrown are gone.

  * `ThrowingWorker` -- the machine of `Worker` with one more action, the execution that throws, and
    an observer of the tasks that were swapped out and of those that were attempted. Which tasks
    throw is up to the schedule.
  * `batch_worker` -- a step of the worker that does not throw attempts a task from the front of the
    batch or swaps tasks in at its back.
  * **`attempted_iff`** -- every task swapped out is attempted, once and in order, before the worker
    swaps again or waits, exactly when every task that throws is the last of its batch.
  * `throw_loses_task` -- two tasks in one batch: the first throws, the second is never attempted.
-/
import HseMultithreading.Sync.Worker

namespace HseMultithreading.Sync

open StepSystem

/-! ## 1. The machine -/

/-- A worker, the tasks its swaps have taken out of `m_tasks` and the tasks whose execution was
    started. -/
structure ThrowingWorker where
  worker : Worker
  swapped : List Task
  attempted : List Task

def ThrowingWorker.start : ThrowingWorker := ⟨.start, [], []⟩

/-- The tasks a step of the worker takes out of `m_tasks`. -/
def Worker.swapsOut (s : Worker) : WorkerPc → List Task
  | .swap => s.tasks
  | _ => []

/-- The task whose execution a step of the worker is. -/
def Worker.attempts (s : Worker) : WorkerPc → List Task
  | .execute => s.batch.take 1
  | _ => []

/-- `run` is a step of the worker or of a thread inside `AddTask`; `throw` is an execution of the
    next task that ends in an exception. -/
inductive ThrowingAction where
  | run (a : WorkerAction)
  | throw

/-- The exception ends the loop over `tasks`; the vector is destroyed, and the loop around it goes
    on behind the `catch`. -/
def ThrowingWorker.step (s : ThrowingWorker) : ThrowingAction → Option ThrowingWorker
  | .run .worker => (s.worker.step .worker).map fun w =>
      ⟨w, s.swapped ++ s.worker.swapsOut s.worker.worker,
        s.attempted ++ s.worker.attempts s.worker.worker⟩
  | .run a => (s.worker.step a).map fun w => { s with worker := w }
  | .throw =>
    match s.worker.worker, s.worker.batch with
    | .execute, task :: _ =>
      some ⟨{ s.worker with batch := [], worker := .stopRequested }, s.swapped,
        s.attempted ++ [task]⟩
    | _, _ => none

/-- **Every task swapped out is attempted once and in order**: what is not attempted yet is the rest
    of the batch, and a worker without a batch has attempted all. -/
def ThrowingWorker.AllAttempted (s : ThrowingWorker) : Prop :=
  s.attempted ++ s.worker.batch = s.swapped ∧
    (s.worker.worker.hasBatch = false → s.attempted = s.swapped)

/-- A task that throws is the last of its batch. -/
def ThrowingWorker.ThrowsLast (s : ThrowingWorker) : ThrowingAction → Prop
  | .throw => s.worker.batch.length = 1
  | .run _ => True

/-! ## 2. The batch, step by step -/

section Steps

variable {s s' : Worker}

/-- The worker has tasks of its own only between the swap and the end of the loop over them. -/
def Worker.Emptied (s : Worker) : Prop := s.worker.hasBatch = false → s.batch = []

/-- **One step of the worker** attempts from the front of the batch and swaps in at its back. -/
theorem batch_worker (h : s.Emptied) {pc : WorkerPc} (hpc : s.worker = pc)
    (hs : s.workerStep pc = some s') :
    s.batch ++ s.swapsOut pc = s.attempts pc ++ s'.batch ∧ s'.Emptied := by
  have hempty : pc.hasBatch = false → s.batch = [] := fun hno => h (hpc ▸ hno)
  cases pc with
  | stopRequested =>
      simp only [Worker.workerStep] at hs
      split at hs <;> obtain rfl := Option.some.inj hs
      · exact ⟨List.append_nil _, fun _ => hempty rfl⟩
      · exact ⟨(List.append_nil _).trans (hempty rfl), fun _ => rfl⟩
  | lock | woken =>
      obtain ⟨r, hr, rfl⟩ := Option.map_eq_some_iff.mp hs
      obtain ⟨-, rfl⟩ := Worker.acquire_eq hr
      exact ⟨List.append_nil _, fun _ => hempty rfl⟩
  | test | wait =>
      obtain rfl := Option.some.inj hs
      exact ⟨List.append_nil _, fun _ => hempty rfl⟩
  | swap =>
      obtain rfl := Option.some.inj hs
      refine ⟨?_, fun hno => by cases hno⟩
      rw [hempty rfl]
      rfl
  | unlock =>
      obtain rfl := Option.some.inj hs
      exact ⟨List.append_nil _, fun hno => by cases hno⟩
  | execute =>
      simp only [Worker.workerStep] at hs
      split at hs <;> obtain rfl := Option.some.inj hs
      next hdone =>
        refine ⟨?_, fun _ => hdone⟩
        rw [hdone, Worker.attempts, hdone]
        rfl
      next task rest hnext =>
        refine ⟨?_, fun hno => ?_⟩
        · rw [hnext, Worker.attempts, hnext]
          exact List.append_nil _
        · rw [show s.worker = .execute from hpc] at hno
          cases hno
  | waiting | exited => cases hs

/-- The other threads, a wake-up and the stop request leave the batch alone. -/
theorem batch_other (h : s.Emptied) {a : WorkerAction} (ha : a ≠ .worker)
    (hs : s.step a = some s') : s'.batch = s.batch ∧ s'.Emptied := by
  have hwoken : s.worker = .waiting → Worker.Emptied { s with worker := .woken } :=
    fun hw _ => h (by rw [hw]; rfl)
  cases a with
  | addTask t task =>
      simp only [Worker.step] at hs
      split at hs
      · obtain rfl := Option.some.inj hs
        exact ⟨rfl, h⟩
      · cases hs
  | adder t =>
      simp only [Worker.step] at hs
      cases hpc : s.adders t <;> rw [hpc] at hs
      case idle => cases hs
      case lock task =>
        obtain ⟨r, hr, rfl⟩ := Option.map_eq_some_iff.mp hs
        obtain ⟨-, rfl⟩ := Worker.acquire_eq hr
        exact ⟨rfl, h⟩
      case notifyOne =>
        obtain rfl := Option.some.inj hs
        unfold Worker.notifyOne
        split
        next hw => exact ⟨rfl, hwoken hw⟩
        next => exact ⟨rfl, h⟩
      all_goals
        obtain rfl := Option.some.inj hs
        exact ⟨rfl, h⟩
  | worker => exact absurd rfl ha
  | spurious =>
      simp only [Worker.step] at hs
      split at hs
      next hw =>
        obtain rfl := Option.some.inj hs
        exact ⟨rfl, hwoken hw⟩
      next => cases hs
  | requestStop =>
      obtain rfl := Option.some.inj hs
      exact ⟨rfl, h⟩

end Steps

/-! ## 3. What is attempted -/

/-- **The invariant**: no task is attempted that was not swapped out, and none twice. -/
structure ThrowingInv (s : ThrowingWorker) : Prop where
  emptied : s.worker.Emptied
  within : s.attempted.length + s.worker.batch.length ≤ s.swapped.length

theorem throwingInv_start : ThrowingInv .start := ⟨fun _ => rfl, Nat.le_refl 0⟩

section Attempts

variable {s s' : ThrowingWorker}

/-- What is left to attempt is the batch; the second half of the law follows. -/
theorem ThrowingInv.allAttempted_iff (h : ThrowingInv s) :
    s.AllAttempted ↔ s.attempted ++ s.worker.batch = s.swapped := by
  refine and_iff_left_of_imp fun he hno => ?_
  rwa [h.emptied hno, List.append_nil] at he

/-- The action that throws: the next task is attempted, and the rest of the batch is gone. -/
theorem throw_eq (hs : s.step .throw = some s') :
    ∃ task rest, s.worker.batch = task :: rest ∧
      s' = ⟨{ s.worker with batch := [], worker := .stopRequested }, s.swapped,
        s.attempted ++ [task]⟩ := by
  simp only [ThrowingWorker.step] at hs
  split at hs
  next task rest _ hbatch => exact ⟨task, rest, hbatch, (Option.some.inj hs).symm⟩
  next => cases hs

/-- **A step that does not throw**: what it attempts and what it swaps out. -/
theorem run_eq (h : s.worker.Emptied) {a : WorkerAction} (hs : s.step (.run a) = some s') :
    ∃ out att, s'.swapped = s.swapped ++ out ∧ s'.attempted = s.attempted ++ att ∧
      s.worker.batch ++ out = att ++ s'.worker.batch ∧ s'.worker.Emptied := by
  by_cases ha : a = .worker
  · subst ha
    obtain ⟨w, hw, rfl⟩ := Option.map_eq_some_iff.mp hs
    exact ⟨_, _, rfl, rfl, batch_worker h rfl hw⟩
  · have hstep : (s.worker.step a).map (fun w => { s with worker := w }) = some s' := by
      cases a <;> first | exact hs | exact absurd rfl ha
    obtain ⟨w, hw, rfl⟩ := Option.map_eq_some_iff.mp hstep
    obtain ⟨hbatch, hempty⟩ := batch_other h ha hw
    exact ⟨[], [], (List.append_nil _).symm, (List.append_nil _).symm,
      (List.append_nil _).trans hbatch.symm, hempty⟩

theorem ThrowingInv.step (h : ThrowingInv s) {a : ThrowingAction} (hs : s.step a = some s') :
    ThrowingInv s' := by
  have hwithin := h.within
  cases a with
  | run a =>
      obtain ⟨out, att, hout, hatt, hbatch, hempty⟩ := run_eq h.emptied hs
      refine ⟨hempty, ?_⟩
      have hlen := congrArg List.length hbatch
      simp only [List.length_append] at hlen
      rw [hout, hatt, List.length_append, List.length_append]
      omega
  | throw =>
      obtain ⟨task, rest, hbatch, rfl⟩ := throw_eq hs
      refine ⟨fun _ => rfl, ?_⟩
      simp only [hbatch, List.length_append, List.length_cons, List.length_nil] at hwithin ⊢
      omega

/-- **The exact step**: the law goes on to hold unless a task throws with others behind it. -/
theorem ThrowingInv.allAttempted_step (h : ThrowingInv s) {a : ThrowingAction}
    (hs : s.step a = some s') : s'.AllAttempted ↔ s.AllAttempted ∧ s.ThrowsLast a := by
  rw [h.allAttempted_iff, (h.step hs).allAttempted_iff]
  cases a with
  | run a =>
      obtain ⟨out, att, hout, hatt, hbatch, -⟩ := run_eq h.emptied hs
      rw [hout, hatt, List.append_assoc, ← hbatch, ← List.append_assoc, List.append_left_inj]
      exact (and_iff_left trivial).symm
  | throw =>
      obtain ⟨task, rest, hbatch, rfl⟩ := throw_eq hs
      have hwithin := h.within
      simp only [ThrowingWorker.ThrowsLast, hbatch, List.append_nil, List.length_cons,
        Nat.add_eq_right, List.length_eq_zero_iff] at hwithin ⊢
      refine ⟨fun he => ?_, fun ⟨he, hrest⟩ => hrest ▸ he⟩
      -- with the swapped tasks used up nothing is behind the one that threw
      have hrest : rest = [] := by
        rw [← he, List.length_append, List.length_singleton] at hwithin
        exact List.eq_nil_of_length_eq_zero (by omega)
      exact ⟨hrest ▸ he, hrest⟩

end Attempts

/-- **Every task swapped out is attempted, once and in order, before the worker waits or swaps
    again, exactly when every task that has thrown was the last of its batch.** -/
theorem attempted_iff {as : List ThrowingAction} {s : ThrowingWorker}
    (h : run ThrowingWorker.step .start as = some s) :
    s.AllAttempted ↔ Along ThrowingWorker.step ThrowingWorker.ThrowsLast .start as := by
  rw [run_along_iff (I := ThrowingInv) (P := ThrowingWorker.AllAttempted)
    (C := ThrowingWorker.ThrowsLast) (fun _ _ _ hI hs => hI.step hs)
    (fun _ _ _ hI hs => hI.allAttempted_step hs) throwingInv_start h]
  exact and_iff_right ⟨rfl, fun _ => rfl⟩

/-- Tasks 10 and 4 are added, and the worker swaps both out in one batch. -/
def oneBatch : List ThrowingAction :=
  ([WorkerAction.addTask 0 10, .addTask 1 4] ++ List.replicate 4 (WorkerAction.adder 0) ++
    List.replicate 4 (WorkerAction.adder 1) ++ List.replicate 5 WorkerAction.worker).map .run

/-- Task 4, the last of its batch, throws. -/
def lastThrows : List ThrowingAction := oneBatch ++ [.run .worker, .throw]

/-- Task 10 throws, and the worker goes on to its next wait. -/
def firstThrows : List ThrowingAction :=
  oneBatch ++ [.throw] ++ List.replicate 4 (ThrowingAction.run .worker)

/-- The last task of a batch throws: both tasks were attempted. -/
theorem attempted_iff_lastThrows :
    ∃ s, run ThrowingWorker.step .start lastThrows = some s ∧ s.attempted = [10, 4] ∧
      s.AllAttempted ∧
      Along ThrowingWorker.step ThrowingWorker.ThrowsLast .start lastThrows := by
  have hrun : (run ThrowingWorker.step .start lastThrows).map (fun s =>
      decide (s.attempted = [10, 4] ∧ s.attempted ++ s.worker.batch = s.swapped ∧
        (s.worker.worker.hasBatch = false → s.attempted = s.swapped))) = some true := by
    decide +kernel
  obtain ⟨s, hs, hp⟩ := Option.map_eq_some_iff.mp hrun
  obtain ⟨hatt, hall⟩ := of_decide_eq_true hp
  exact ⟨s, hs, hatt, hall, (attempted_iff hs).mp hall⟩

/-- **A failing task discards another**: the worker is back at its wait, task 4 was swapped out and
    never attempted, and it is nowhere any more. -/
theorem throw_loses_task :
    ∃ s, run ThrowingWorker.step .start firstThrows = some s ∧ s.worker.worker = .waiting ∧
      s.swapped = [10, 4] ∧ s.attempted = [10] ∧ s.worker.tasks = [] ∧ s.worker.batch = [] ∧
      ¬ s.AllAttempted := by
  have hrun : (run ThrowingWorker.step .start firstThrows).map (fun s =>
      decide (s.worker.worker = .waiting ∧ s.swapped = [10, 4] ∧ s.attempted = [10] ∧
        s.worker.tasks = [] ∧ s.worker.batch = [])) = some true := by
    decide +kernel
  obtain ⟨s, hs, hp⟩ := Option.map_eq_some_iff.mp hrun
  obtain ⟨hpc, hswapped, hatt, htasks, hbatch⟩ := of_decide_eq_true hp
  refine ⟨s, hs, hpc, hswapped, hatt, htasks, hbatch, fun ⟨h, _⟩ => ?_⟩
  rw [hswapped, hatt, hbatch] at h
  cases h

end HseMultithreading.Sync
