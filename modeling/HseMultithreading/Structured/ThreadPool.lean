/-
  File:      HseMultithreading/Structured/ThreadPool.lean
  Subject:   `ThreadPool` (`structured_concurrency/packaged_task.cpp`): threads that take packaged
             tasks from a list behind a mutex, the thread that owns the pool, and the futures.

  `Submit` appends to `m_tasks` WITHOUT `m_mtx`. An access to the list therefore takes two steps
  here, one where it begins and one where it ends, and an access that begins inside another one is
  a race: from then on the list may hold anything. Two workers never race, the mutex keeps them
  apart; `Submit` and a worker do, and nothing in the code prevents it (`submit_races`). What is
  proved is proved of the runs without such an overlap (`raced = false`).

  * `ThreadPool`, `ThreadPool.step` -- any number of workers in `WorkerThread` and `GetTask`, and
    the owner: `Submit`, `future::get`, and the destructor, which stops and joins one thread after
    the other and then destroys the tasks nobody has taken. A task ends by returning or by throwing.
  * `PoolInv` -- who owns `m_mtx`, which task is where, and what stands in the shared states, as
    long as no two accesses have overlapped.
  * **`pool_runs_in_order`** -- until the first overlap tasks leave the list in the order of
    submission, each is executed at most once, a future has the outcome of its own task, and after
    the destructor the tasks taken have run and the others are broken promises.
  * `submit_races` -- a single `Submit` can overlap with a worker that tests the list, and then its
    task may be neither in the list nor taken.

  NOT here: `Submit` synchronizes with nobody, so C++ also calls its access and a LATER one of a
  worker a race. The accesses are taken to reach memory in one order, as they end.
-/
import HseMultithreading.Lib.Run
import HseMultithreading.Lib.Token

namespace HseMultithreading.Structured

open StepSystem TokenRule Bag

/-! ## 1. The machine -/

/-- How the call of a task ends. -/
inductive Outcome where
  | returns
  | throws (what : String)
  deriving DecidableEq

/-- `std::packaged_task`: the function and, by its number, the state it shares with its future. -/
structure Packaged where
  id : ℕ
  outcome : Outcome
  deriving DecidableEq

/-- The state a packaged task shares with its future. -/
inductive Shared where
  | notReady
  | ready (outcome : Outcome)
  | broken
  deriving DecidableEq

/-- What a thread in `WorkerThread` does NEXT; from `lock` to `unlock` it is inside `GetTask`. At
    `testing` and `popping` it is inside an access to `m_tasks`. -/
inductive WorkerPc where
  | stopRequested
  | lock
  | empty
  | testing
  | popFront
  | popping
  | unlock (task : Option Packaged)
  | invoke (task : Packaged)
  | setResult (task : Packaged)
  | exited
  deriving DecidableEq

/-- What the owner of the pool does NEXT; at `emplacing` it is inside an access to `m_tasks`.
    `destroy rest` has still to stop and join the threads `rest`, and then to destroy `m_tasks`. -/
inductive OwnerPc (n : ℕ) where
  | idle
  | emplaceBack (task : Outcome)
  | emplacing (task : Outcome)
  | get (k : ℕ)
  | destroy (rest : List (Fin n))
  | join (i : Fin n) (rest : List (Fin n))
  deriving DecidableEq

/-- Inside an access to `m_tasks`: `empty`, or `front` and `pop_front`. -/
def WorkerPc.atList : WorkerPc → Bool
  | .testing | .popping => true
  | _ => false

/-- Inside an access to `m_tasks`: `emplace_back`. -/
def OwnerPc.atList {n : ℕ} : OwnerPc n → Bool
  | .emplacing _ => true
  | _ => false

/-- The pool with `n` threads. Beside it an observer keeps whether two accesses to `m_tasks` have
    overlapped, the tasks submitted, how many were taken, which were executed and have their result
    set, in this order, and what `get` has given. -/
structure ThreadPool (n : ℕ) where
  mtx : Option (Fin n)
  tasks : List Packaged
  shared : ℕ → Shared
  stop : Fin n → Bool
  workers : Fin n → WorkerPc
  owner : OwnerPc n
  alive : Bool
  raced : Bool
  submitted : List Outcome
  taken : ℕ
  executed : List ℕ
  completed : List ℕ
  got : List (ℕ × Shared)

variable {n : ℕ}

/-- After the constructor. -/
def ThreadPool.start (n : ℕ) : ThreadPool n where
  mtx := none
  tasks := []
  shared _ := .notReady
  stop _ := false
  workers _ := .stopRequested
  owner := .idle
  alive := true
  raced := false
  submitted := []
  taken := 0
  executed := []
  completed := []
  got := []

def ThreadPool.goto (s : ThreadPool n) (t : Fin n) (pc : WorkerPc) : ThreadPool n :=
  { s with workers := Function.update s.workers t pc }

/-- Where a worker goes on with what `GetTask` has returned; without a task it sleeps. -/
def WorkerPc.onTask : Option Packaged → WorkerPc
  | none => .stopRequested
  | some p => .invoke p

/-- A worker is inside an access to `m_tasks`. -/
def ThreadPool.listBusy (s : ThreadPool n) : Bool :=
  (List.finRange n).any fun t => (s.workers t).atList

/-- A worker begins an access to `m_tasks`. -/
def ThreadPool.access (s : ThreadPool n) (t : Fin n) (pc : WorkerPc) : ThreadPool n :=
  { s with raced := s.raced || s.owner.atList }.goto t pc

/-- The next step of a worker. -/
def ThreadPool.workerStep (s : ThreadPool n) (t : Fin n) : WorkerPc → Option (ThreadPool n)
  | .stopRequested => some (s.goto t (if s.stop t then .exited else .lock))
  | .lock =>
    match s.mtx with
    | none => some ({ s with mtx := some t }.goto t .empty)
    | some _ => none
  | .empty => some (s.access t .testing)
  | .testing => some (s.goto t (if s.tasks.isEmpty then .unlock none else .popFront))
  | .popFront => some (s.access t .popping)
  | .popping =>
    match s.tasks with
    | [] => none
    | p :: rest =>
      some ({ s with tasks := rest, taken := s.taken + 1 }.goto t (.unlock (some p)))
  | .unlock task => some ({ s with mtx := none }.goto t (.onTask task))
  | .invoke p => some ({ s with executed := s.executed ++ [p.id] }.goto t (.setResult p))
  | .setResult p =>
    some ({ s with
      shared := Function.update s.shared p.id (.ready p.outcome)
      completed := s.completed ++ [p.id] }.goto t .stopRequested)
  | .exited => none

/-- The next step of the owner. A packaged task that is destroyed without having been called breaks
    its promise. -/
def ThreadPool.ownerStep (s : ThreadPool n) : OwnerPc n → Option (ThreadPool n)
  | .idle => none
  | .emplaceBack o => some { s with raced := s.raced || s.listBusy, owner := .emplacing o }
  | .emplacing o =>
    some { s with
      tasks := s.tasks ++ [⟨s.submitted.length, o⟩]
      submitted := s.submitted ++ [o]
      owner := .idle }
  | .get k =>
    if s.shared k = .notReady then none
    else some { s with got := s.got ++ [(k, s.shared k)], owner := .idle }
  | .destroy [] =>
    some { s with
      tasks := []
      shared := fun k => if s.tasks.any (·.id == k) then .broken else s.shared k
      alive := false
      owner := .idle }
  | .destroy (i :: rest) =>
    some { s with stop := Function.update s.stop i true, owner := .join i rest }
  | .join i rest => if s.workers i = .exited then some { s with owner := .destroy rest } else none

inductive PoolAction (n : ℕ) where
  | submit (o : Outcome)
  | get (k : ℕ)
  | destroy
  | owner
  | worker (t : Fin n)
  | corrupt (tasks : List Packaged)

/-- One step. A future is asked once. After a race the list may come to hold anything. -/
def ThreadPool.step (s : ThreadPool n) : PoolAction n → Option (ThreadPool n)
  | .submit o =>
    if s.owner = .idle ∧ s.alive then some { s with owner := .emplaceBack o } else none
  | .get k =>
    if s.owner = .idle ∧ k < s.submitted.length ∧ k ∉ s.got.map Prod.fst then
      some { s with owner := .get k }
    else none
  | .destroy =>
    if s.owner = .idle ∧ s.alive then some { s with owner := .destroy (List.finRange n) } else none
  | .owner => s.ownerStep s.owner
  | .worker t => s.workerStep t (s.workers t)
  | .corrupt tasks => if s.raced then some { s with tasks := tasks } else none

/-- **What a step of worker `t` can be**, guards included. -/
inductive WorkerStep (s : ThreadPool n) (t : Fin n) : ThreadPool n → Prop where
  | exits (hpc : s.workers t = .stopRequested) (hstop : s.stop t = true) :
      WorkerStep s t (s.goto t .exited)
  | goes (hpc : s.workers t = .stopRequested) (hstop : s.stop t = false) :
      WorkerStep s t (s.goto t .lock)
  | locks (hpc : s.workers t = .lock) (hfree : s.mtx = none) :
      WorkerStep s t ({ s with mtx := some t }.goto t .empty)
  | tests (hpc : s.workers t = .empty) : WorkerStep s t (s.access t .testing)
  | misses (hpc : s.workers t = .testing) (htasks : s.tasks = []) :
      WorkerStep s t (s.goto t (.unlock none))
  | finds (hpc : s.workers t = .testing) (htasks : s.tasks ≠ []) :
      WorkerStep s t (s.goto t .popFront)
  | reaches (hpc : s.workers t = .popFront) : WorkerStep s t (s.access t .popping)
  | takes (hpc : s.workers t = .popping) (p : Packaged) (rest : List Packaged)
      (hp : s.tasks = p :: rest) :
      WorkerStep s t ({ s with tasks := rest, taken := s.taken + 1 }.goto t (.unlock (some p)))
  | unlocks (task : Option Packaged) (hpc : s.workers t = .unlock task) :
      WorkerStep s t ({ s with mtx := none }.goto t (.onTask task))
  | invokes (p : Packaged) (hpc : s.workers t = .invoke p) :
      WorkerStep s t ({ s with executed := s.executed ++ [p.id] }.goto t (.setResult p))
  | sets (p : Packaged) (hpc : s.workers t = .setResult p) :
      WorkerStep s t ({ s with
        shared := Function.update s.shared p.id (.ready p.outcome)
        completed := s.completed ++ [p.id] }.goto t .stopRequested)

theorem worker_cases {s s' : ThreadPool n} {t : Fin n} (hs : s.step (.worker t) = some s') :
    WorkerStep s t s' := by
  simp only [ThreadPool.step] at hs
  cases hpc : s.workers t with
  | stopRequested =>
      rw [hpc] at hs
      obtain rfl := Option.some.inj hs
      cases hstop : s.stop t with
      | true => exact .exits hpc hstop
      | false => exact .goes hpc hstop
  | lock =>
      simp only [hpc, ThreadPool.workerStep] at hs
      split at hs
      · obtain rfl := Option.some.inj hs
        exact .locks hpc ‹_›
      · cases hs
  | empty =>
      rw [hpc] at hs
      obtain rfl := Option.some.inj hs
      exact .tests hpc
  | testing =>
      rw [hpc] at hs
      obtain rfl := Option.some.inj hs
      cases htasks : s.tasks with
      | nil => exact .misses hpc htasks
      | cons p rest => exact .finds hpc (by rw [htasks]; exact List.cons_ne_nil p rest)
  | popFront =>
      rw [hpc] at hs
      obtain rfl := Option.some.inj hs
      exact .reaches hpc
  | popping =>
      simp only [hpc, ThreadPool.workerStep] at hs
      split at hs
      · cases hs
      · obtain rfl := Option.some.inj hs
        exact .takes hpc _ _ ‹_›
  | unlock task =>
      rw [hpc] at hs
      obtain rfl := Option.some.inj hs
      exact .unlocks task hpc
  | invoke p =>
      rw [hpc] at hs
      obtain rfl := Option.some.inj hs
      exact .invokes p hpc
  | setResult p =>
      rw [hpc] at hs
      obtain rfl := Option.some.inj hs
      exact .sets p hpc
  | exited => rw [hpc] at hs; cases hs

section Goto

variable (s : ThreadPool n) {t u : Fin n} (pc : WorkerPc)

theorem goto_self (t : Fin n) : (s.goto t pc).workers t = pc := Function.update_self ..

theorem goto_of_ne (h : u ≠ t) : (s.goto t pc).workers u = s.workers u := Function.update_of_ne h ..

end Goto

section Frame

variable {s s' : ThreadPool n} {t : Fin n}

/-- What a step of a worker leaves alone. -/
structure WorkerFrame (s s' : ThreadPool n) (t : Fin n) : Prop where
  owner : s'.owner = s.owner
  stop : s'.stop = s.stop
  alive : s'.alive = s.alive
  submitted : s'.submitted = s.submitted
  got : s'.got = s.got
  taken : s.taken ≤ s'.taken
  workers : ∀ u, u ≠ t → s'.workers u = s.workers u
  raced : s'.raced = s.raced ∨ s'.raced = (s.raced || s.owner.atList)
  exits : s'.workers t = .exited → s.stop t = true

theorem WorkerStep.frame (hs : WorkerStep s t s') : WorkerFrame s s' t := by
  -- a step that does not end the loop
  have hgoto : ∀ {r : ThreadPool n} {pc : WorkerPc}, r.owner = s.owner → r.stop = s.stop →
      r.alive = s.alive → r.submitted = s.submitted → r.got = s.got → s.taken ≤ r.taken →
      r.workers = s.workers → (r.raced = s.raced ∨ r.raced = (s.raced || s.owner.atList)) →
      (pc = .exited → s.stop t = true) → WorkerFrame s (r.goto t pc) t :=
    fun {r pc} ho hst ha hsub hg htk hw hrc hpc => ⟨ho, hst, ha, hsub, hg, htk,
      fun u hu => by rw [goto_of_ne r pc hu, hw], hrc,
      fun e => hpc ((goto_self r pc t).symm.trans e)⟩
  cases hs with
  | exits hpc hstop => exact hgoto rfl rfl rfl rfl rfl (Nat.le_refl _) rfl (.inl rfl) fun _ => hstop
  | tests | reaches =>
      exact hgoto rfl rfl rfl rfl rfl (Nat.le_refl _) rfl (.inr rfl) fun e => by cases e
  | takes => exact hgoto rfl rfl rfl rfl rfl (Nat.le_succ _) rfl (.inl rfl) fun e => by cases e
  | unlocks task =>
      refine hgoto rfl rfl rfl rfl rfl (Nat.le_refl _) rfl (.inl rfl) ?_
      cases task <;> exact fun e => by cases e
  | goes | locks | misses | finds | invokes | sets =>
      exact hgoto rfl rfl rfl rfl rfl (Nat.le_refl _) rfl (.inl rfl) fun e => by cases e

/-- Outside `emplace_back` a worker cannot run into the owner. -/
theorem WorkerFrame.calm (hf : WorkerFrame s s' t) (hcalm : s.raced = false)
    (howner : s.owner.atList = false) : s'.raced = false := by
  rcases hf.raced with e | e
  · rw [e, hcalm]
  · rw [e, hcalm, howner]
    rfl

theorem WorkerFrame.was_calm (hf : WorkerFrame s s' t) (hcalm : s'.raced = false) :
    s.raced = false := by
  rcases hf.raced with e | e
  · rw [← e, hcalm]
  · rw [e] at hcalm
    exact (Bool.or_eq_false_iff.mp hcalm).1

end Frame

/-! ## 2. The invariant -/

/-- The worker owns `m_mtx`. -/
def WorkerPc.inMtx : WorkerPc → Bool
  | .empty | .testing | .popFront | .popping | .unlock _ => true
  | _ => false

/-- The worker has found the list not empty. -/
def WorkerPc.taking : WorkerPc → Bool
  | .popFront | .popping => true
  | _ => false

/-- The task a worker has taken. -/
def WorkerPc.task : WorkerPc → Option Packaged
  | .unlock task => task
  | .invoke p | .setResult p => some p
  | _ => none

/-- The task a worker has taken and not called yet. -/
def WorkerPc.waiting : WorkerPc → Option ℕ
  | .unlock task => task.map Packaged.id
  | .invoke p => some p.id
  | _ => none

/-- The task a worker has called and whose result it has not set yet. -/
def WorkerPc.ran : WorkerPc → Option ℕ
  | .setResult p => some p.id
  | _ => none

/-- The task a worker has taken is one of those submitted. -/
def WorkerPc.Names (pc : WorkerPc) (submitted : List Outcome) : Prop :=
  ∀ p, pc.task = some p → submitted[p.id]? = some p.outcome

/-- The tasks with their numbers. -/
def numbered (os : List Outcome) : List Packaged := os.mapIdx fun i o => ⟨i, o⟩

/-- The thread has not been joined. -/
def OwnerPc.pending : OwnerPc n → Fin n → Prop
  | .destroy rest, t => t ∈ rest
  | .join i rest, t => t = i ∨ t ∈ rest
  | _, _ => True

/-- **The invariant of the pool.** -/
structure PoolInv (s : ThreadPool n) : Prop where
  token : Token WorkerPc.inMtx s.workers s.mtx
  queue : s.tasks = if s.alive then (numbered s.submitted).drop s.taken else []
  taken_le : s.taken ≤ s.submitted.length
  front : ∀ t, (s.workers t).taking = true → s.tasks ≠ []
  held : ∀ t, (s.workers t).Names s.submitted
  begun : (↑s.executed : Multiset ℕ) + bagOf (fun t => (s.workers t).waiting) =
    Multiset.range s.taken
  ended : (↑s.completed : Multiset ℕ) + bagOf (fun t => (s.workers t).ran) = ↑s.executed
  ready : ∀ k o, s.shared k = .ready o ↔ k ∈ s.completed ∧ s.submitted[k]? = some o
  broken : ∀ k, s.shared k = .broken ↔
    s.alive = false ∧ s.taken ≤ k ∧ k < s.submitted.length
  got : ∀ k r, (k, r) ∈ s.got → r = s.shared k ∧ r ≠ .notReady
  joined : ∀ t, (s.alive = false ∨ ¬ s.owner.pending t) → s.workers t = .exited
  dead : s.alive = false → s.owner = .idle ∨ ∃ k, s.owner = .get k

section Steps

variable {s s' : ThreadPool n} {t : Fin n}

theorem poolInv_start (n : ℕ) : PoolInv (.start n) where
  token t := ⟨fun h => (by cases h), fun h => (by cases h)⟩
  queue := rfl
  taken_le := Nat.le_refl 0
  front _ h := by cases h
  held _ _ h := by cases h
  begun := by
    show (0 : Multiset ℕ) + bagOf (fun _ => none) = _
    rw [bagOf_none]
    rfl
  ended := by
    show (0 : Multiset ℕ) + bagOf (fun _ => none) = _
    rw [bagOf_none]
    rfl
  ready k o := iff_of_false (fun h => by cases h) fun h => by cases h.1
  broken k := iff_of_false (fun h => by cases h) fun h => by cases h.1
  got _ _ h := by cases h
  joined t h := by
    rcases h with h | h
    · cases h
    · exact absurd trivial h
  dead h := by cases h

theorem numbered_append (os : List Outcome) (o : Outcome) :
    numbered (os ++ [o]) = numbered os ++ [⟨os.length, o⟩] := List.mapIdx_concat

theorem length_numbered (os : List Outcome) : (numbered os).length = os.length := List.length_mapIdx

theorem numbered_getElem? (os : List Outcome) (k : ℕ) :
    (numbered os)[k]? = os[k]?.map (⟨k, ·⟩) := List.getElem?_mapIdx

/-- The first task of the list, when there is one, is the next one in the order of submission. -/
theorem PoolInv.front_eq (h : PoolInv s) {p : Packaged} {rest : List Packaged}
    (hp : s.tasks = p :: rest) :
    s.alive = true ∧ p.id = s.taken ∧ s.submitted[s.taken]? = some p.outcome ∧
      s.taken < s.submitted.length ∧ rest = (numbered s.submitted).drop (s.taken + 1) := by
  have hq := h.queue
  rw [hp] at hq
  cases ha : s.alive with
  | false => rw [ha] at hq; cases hq
  | true =>
      rw [ha, if_pos rfl] at hq
      have hlt : s.taken < (numbered s.submitted).length := by
        by_contra hge
        rw [List.drop_eq_nil_of_le (Nat.le_of_not_lt hge)] at hq
        cases hq
      rw [List.drop_eq_getElem_cons hlt] at hq
      obtain ⟨hhead, htail⟩ := List.cons.inj hq
      have hget : (numbered s.submitted)[s.taken]? = some p := by
        rw [List.getElem?_eq_getElem hlt, hhead]
      rw [numbered_getElem?] at hget
      obtain ⟨o, ho, rfl⟩ := Option.map_eq_some_iff.mp hget
      exact ⟨rfl, rfl, ho, by rwa [length_numbered] at hlt, htail⟩

/-- A worker that has not been joined is not past its loop. -/
theorem PoolInv.moving (h : PoolInv s) (ht : s.workers t ≠ .exited) (u : Fin n)
    (hu : s.alive = false ∨ ¬ s.owner.pending u) (pc : WorkerPc) :
    Function.update s.workers t pc u = .exited := by
  have hexited := h.joined u hu
  have hne : u ≠ t := fun e => ht (e ▸ hexited)
  rw [Function.update_of_ne hne, hexited]

theorem PoolInv.front_goto (h : PoolInv s) {pc : WorkerPc}
    (hpc : pc.taking = true → s.tasks ≠ []) (u : Fin n) :
    (Function.update s.workers t pc u).taking = true → s.tasks ≠ [] :=
  (Function.forall_update_iff s.workers fun _ pc => pc.taking = true → s.tasks ≠ []).mpr
    ⟨hpc, fun u _ => h.front u⟩ u

theorem PoolInv.held_goto (h : PoolInv s) {pc : WorkerPc} (hpc : pc.Names s.submitted) (u : Fin n) :
    (Function.update s.workers t pc u).Names s.submitted :=
  (Function.forall_update_iff s.workers fun _ pc => pc.Names s.submitted).mpr
    ⟨hpc, fun u _ => h.held u⟩ u

/-- A step of a worker that takes no task, calls none and sets no result. -/
theorem PoolInv.moves (h : PoolInv s) {pc : WorkerPc} {mtx : Option (Fin n)} {raced : Bool}
    (hpass : Pass WorkerPc.inMtx t (s.workers t) pc s.mtx mtx)
    (hwaiting : pc.waiting = (s.workers t).waiting) (hran : pc.ran = (s.workers t).ran)
    (htask : ∀ p, pc.task = some p → (s.workers t).task = some p)
    (hfront : pc.taking = true → s.tasks ≠ []) (hne : s.workers t ≠ .exited) :
    PoolInv ({ s with mtx := mtx, raced := raced }.goto t pc) where
  token := h.token.pass hpass
  queue := h.queue
  taken_le := h.taken_le
  front := h.front_goto hfront
  held := h.held_goto fun p hp => h.held t p (htask p hp)
  begun := (congrArg _ (bagOf_stay hwaiting)).trans h.begun
  ended := (congrArg _ (bagOf_stay hran)).trans h.ended
  ready := h.ready
  broken := h.broken
  got := h.got
  joined u hu := h.moving hne u hu pc
  dead := h.dead

theorem inMtx_of_taking {pc : WorkerPc} (h : pc.taking = true) : pc.inMtx = true := by
  cases pc with
  | popFront | popping => rfl
  | _ => cases h

/-- `pop_front` takes the task that was submitted first of those that are left. -/
theorem PoolInv.takes (h : PoolInv s) (ht : s.workers t = .popping) {p : Packaged}
    {rest : List Packaged} (hp : s.tasks = p :: rest) :
    PoolInv ({ s with tasks := rest, taken := s.taken + 1 }.goto t (.unlock (some p))) := by
  obtain ⟨halive, hid, hout, hlt, hrest⟩ := h.front_eq hp
  have hother : ∀ u, (s.workers u).taking = true → u = t := fun u hu =>
    h.token.unique (inMtx_of_taking hu) (by rw [ht]; rfl)
  have hnames : (WorkerPc.unlock (some p)).Names s.submitted := fun q hq => by
    obtain rfl : p = q := Option.some.inj hq
    rw [hid]
    exact hout
  have hne : s.workers t ≠ .exited := by rw [ht]; exact fun e => by cases e
  refine ⟨h.token.pass (.keep _ (by rw [ht]; rfl)), ?_, hlt, ?_, h.held_goto hnames, ?_, ?_,
    h.ready, fun k => ?_, h.got, fun u hu => h.moving hne u hu _, h.dead⟩
  · show rest = if s.alive then (numbered s.submitted).drop (s.taken + 1) else []
    rw [halive, if_pos rfl, hrest]
  · refine (Function.forall_update_iff s.workers fun _ pc => pc.taking = true → rest ≠ []).mpr
      ⟨fun e => (by cases e), fun u hu e => absurd (hother u e) hu⟩
  · have hbag : bagOf (fun u => (Function.update s.workers t (.unlock (some p)) u).waiting) =
        bagOf (fun u => (s.workers u).waiting) + {p.id} :=
      bagOf_enter (by rw [ht]; rfl) rfl
    show ↑s.executed + bagOf (fun u => (Function.update s.workers t (.unlock (some p)) u).waiting) =
      Multiset.range (s.taken + 1)
    rw [hbag, ← add_assoc, h.begun, hid, Multiset.range_succ, add_comm, Multiset.singleton_add]
  · exact (congrArg _ (bagOf_stay (by rw [ht]; rfl))).trans h.ended
  · refine iff_of_false (fun hk => ?_) fun hk => ?_
    · rw [((h.broken k).mp hk).1] at halive
      cases halive
    · rw [show s.alive = false from hk.1] at halive
      cases halive

/-- The task is called. -/
theorem PoolInv.invokes (h : PoolInv s) {p : Packaged} (ht : s.workers t = .invoke p) :
    PoolInv ({ s with executed := s.executed ++ [p.id] }.goto t (.setResult p)) := by
  have hne : s.workers t ≠ .exited := by rw [ht]; exact fun e => by cases e
  refine ⟨h.token.pass (.keep _ (by rw [ht]; rfl)), h.queue, h.taken_le,
    h.front_goto fun e => (by cases e), h.held_goto fun q hq => h.held t q ?_, ?_, ?_, h.ready,
    h.broken, h.got, fun u hu => h.moving hne u hu _, h.dead⟩
  · rw [ht]
    exact hq
  · have hbag : bagOf (fun u => (s.workers u).waiting) =
        bagOf (fun u => (Function.update s.workers t (.setResult p) u).waiting) + {p.id} :=
      bagOf_leave (by rw [ht]; rfl) rfl
    show (↑(s.executed ++ [p.id]) : Multiset ℕ) +
      bagOf (fun u => (Function.update s.workers t (.setResult p) u).waiting) = _
    rw [coe_concat_add, ← hbag]
    exact h.begun
  · have hbag : bagOf (fun u => (Function.update s.workers t (.setResult p) u).ran) =
        bagOf (fun u => (s.workers u).ran) + {p.id} := bagOf_enter (by rw [ht]; rfl) rfl
    show (↑s.completed : Multiset ℕ) +
      bagOf (fun u => (Function.update s.workers t (.setResult p) u).ran) = ↑(s.executed ++ [p.id])
    rw [hbag, ← add_assoc, h.ended, ← Multiset.coe_add, Multiset.coe_singleton]

/-- No task is executed twice. -/
theorem PoolInv.executed_nodup (h : PoolInv s) : s.executed.Nodup := by
  rw [← Multiset.coe_nodup]
  refine Multiset.nodup_of_le ?_ (Multiset.nodup_range s.taken)
  rw [← h.begun]
  exact Multiset.le_add_right _ _

theorem PoolInv.executed_lt (h : PoolInv s) {k : ℕ} (hk : k ∈ s.executed) : k < s.taken := by
  rw [← Multiset.mem_range, ← h.begun, Multiset.mem_add]
  exact .inl hk

section Completed

variable {completed : List ℕ} {rest : Multiset ℕ}
  (he : (↑completed : Multiset ℕ) + rest = ↑s.executed)
include he

theorem PoolInv.completed_nodup (h : PoolInv s) : completed.Nodup := by
  rw [← Multiset.coe_nodup]
  refine Multiset.nodup_of_le ?_ (Multiset.coe_nodup.mpr h.executed_nodup)
  rw [← he]
  exact Multiset.le_add_right _ _

theorem completed_executed {k : ℕ} (hk : k ∈ completed) : k ∈ s.executed := by
  rw [← Multiset.mem_coe, ← he, Multiset.mem_add]
  exact .inl hk

end Completed

/-- The result is set: it was not set before. -/
theorem PoolInv.sets (h : PoolInv s) {p : Packaged} (ht : s.workers t = .setResult p) :
    PoolInv ({ s with
      shared := Function.update s.shared p.id (.ready p.outcome)
      completed := s.completed ++ [p.id] }.goto t .stopRequested) := by
  have hne : s.workers t ≠ .exited := by rw [ht]; exact fun e => by cases e
  have hout : s.submitted[p.id]? = some p.outcome := h.held t p (by rw [ht]; rfl)
  have hbag : bagOf (fun u => (s.workers u).ran) =
      bagOf (fun u => (Function.update s.workers t .stopRequested u).ran) + {p.id} :=
    bagOf_leave (by rw [ht]; rfl) rfl
  have hended : (↑(s.completed ++ [p.id]) : Multiset ℕ) +
      bagOf (fun u => (Function.update s.workers t .stopRequested u).ran) = ↑s.executed := by
    rw [coe_concat_add, ← hbag, h.ended]
  have hall : (s.completed ++ [p.id]).Nodup := h.completed_nodup hended
  have hnew : p.id ∉ s.completed := fun hmem =>
    List.disjoint_of_nodup_append hall hmem (List.mem_singleton_self p.id)
  have hpending : ∀ k, s.shared k = .broken → k ≠ p.id := fun k hk e => by
    have hlt := h.executed_lt (completed_executed hended (by simp : p.id ∈ s.completed ++ [p.id]))
    have := ((h.broken k).mp hk).2.1
    omega
  refine ⟨h.token.pass (.keep _ (by rw [ht]; rfl)), h.queue, h.taken_le,
    h.front_goto fun e => (by cases e), h.held_goto fun q hq => (by cases hq),
    (congrArg _ (bagOf_stay (by rw [ht]; rfl))).trans h.begun, hended, fun k o => ?_, fun k => ?_,
    fun k r hr => ?_, fun u hu => h.moving hne u hu _, h.dead⟩
  · show Function.update s.shared p.id (.ready p.outcome) k = .ready o ↔
      k ∈ s.completed ++ [p.id] ∧ s.submitted[k]? = some o
    by_cases e : k = p.id
    · subst e
      rw [Function.update_self, Shared.ready.injEq, hout, Option.some.injEq]
      exact ⟨fun e => ⟨by simp, e⟩, fun e => e.2⟩
    · rw [Function.update_of_ne e, h.ready, List.mem_append, List.mem_singleton, or_iff_left e]
  · show Function.update s.shared p.id (.ready p.outcome) k = .broken ↔ _
    by_cases e : k = p.id
    · subst e
      rw [Function.update_self]
      refine iff_of_false (fun e => by cases e) fun hk => hpending _ ((h.broken _).mpr hk) rfl
    · rw [Function.update_of_ne e, h.broken]
      rfl
  · obtain ⟨hsame, hready⟩ := h.got k r hr
    refine ⟨?_, hready⟩
    show r = Function.update s.shared p.id (.ready p.outcome) k
    have hk : k ≠ p.id := fun e => by
      subst e
      rw [hsame] at hready
      cases hsh : s.shared p.id with
      | notReady => exact hready hsh
      | ready o => exact hnew ((h.ready p.id o).mp hsh).1
      | broken => exact hpending p.id hsh rfl
    rw [Function.update_of_ne hk, hsame]

theorem PoolInv.worker_step (h : PoolInv s) (hs : WorkerStep s t s') : PoolInv s' := by
  have hmoves : ∀ {pc pc' : WorkerPc} {mtx : Option (Fin n)} {raced : Bool},
      s.workers t = pc → pc ≠ .exited → Pass WorkerPc.inMtx t pc pc' s.mtx mtx →
      pc'.waiting = pc.waiting → pc'.ran = pc.ran →
      (∀ p, pc'.task = some p → pc.task = some p) → (pc'.taking = true → s.tasks ≠ []) →
      PoolInv ({ s with mtx := mtx, raced := raced }.goto t pc') := by
    intro pc pc' mtx raced hpc hne hpass hw hr htask hfront
    refine h.moves ?_ ?_ ?_ ?_ hfront ?_ <;> rw [hpc] <;> assumption
  cases hs with
  | exits hpc | goes hpc | tests hpc | misses hpc =>
      exact hmoves hpc (fun e => by cases e) (.keep _ rfl) rfl rfl (fun _ e => by cases e)
        fun e => by cases e
  | locks hpc hfree =>
      refine hmoves hpc (fun e => by cases e) ?_ rfl rfl (fun _ e => by cases e) fun e => by cases e
      rw [hfree]
      exact .take rfl
  | finds hpc htasks =>
      exact hmoves hpc (fun e => by cases e) (.keep _ rfl) rfl rfl (fun _ e => by cases e)
        fun _ => htasks
  | reaches hpc =>
      exact hmoves hpc (fun e => by cases e) (.keep _ rfl) rfl rfl (fun _ e => by cases e)
        fun _ => h.front t (by rw [hpc]; rfl)
  | takes hpc p rest hp => exact h.takes hpc hp
  | unlocks task hpc =>
      have hown : s.mtx = some t := (h.token t).mp (by rw [hpc]; rfl)
      have hpass : WorkerPc.inMtx (.onTask task) = false →
          Pass WorkerPc.inMtx t (.unlock task) (.onTask task) s.mtx none := fun hout => by
        rw [hown]
        exact .drop hout
      cases task with
      | none =>
          exact hmoves hpc (fun e => by cases e) (hpass rfl) rfl rfl (fun _ e => by cases e)
            fun e => by cases e
      | some p =>
          exact hmoves hpc (fun e => by cases e) (hpass rfl) rfl rfl (fun _ e => e)
            fun e => by cases e
  | invokes p hpc => exact h.invokes hpc
  | sets p hpc => exact h.sets hpc

/-- The numbers of the tasks that are left. -/
theorem mem_drop_numbered (os : List Outcome) (m k : ℕ) :
    (∃ p ∈ (numbered os).drop m, p.id = k) ↔ m ≤ k ∧ k < os.length := by
  constructor
  · rintro ⟨p, hp, rfl⟩
    obtain ⟨j, hj⟩ := List.mem_iff_getElem?.mp hp
    rw [List.getElem?_drop, numbered_getElem?] at hj
    obtain ⟨o, ho, rfl⟩ := Option.map_eq_some_iff.mp hj
    exact ⟨Nat.le_add_right m j, (List.getElem?_eq_some_iff.mp ho).1⟩
  · rintro ⟨hm, hk⟩
    refine ⟨⟨k, os[k]⟩, List.mem_iff_getElem?.mpr ⟨k - m, ?_⟩, rfl⟩
    rw [List.getElem?_drop, Nat.add_sub_cancel' hm, numbered_getElem?,
      List.getElem?_eq_getElem hk, Option.map_some]

/-- While the owner is inside `Submit` or the destructor, the pool is there. -/
theorem PoolInv.alive_of (h : PoolInv s) (hidle : s.owner ≠ .idle) (hget : ∀ k, s.owner ≠ .get k) :
    s.alive = true := by
  cases ha : s.alive with
  | true => rfl
  | false =>
      rcases h.dead ha with e | ⟨k, e⟩
      · exact absurd e hidle
      · exact absurd e (hget k)

theorem PoolInv.completed_lt (h : PoolInv s) {k : ℕ} (hk : k ∈ s.completed) :
    k < s.submitted.length :=
  Nat.lt_of_lt_of_le (h.executed_lt (completed_executed h.ended hk)) h.taken_le

theorem PoolInv.submits (h : PoolInv s) {o : Outcome} (ho : s.owner = .emplacing o) :
    PoolInv { s with
      tasks := s.tasks ++ [⟨s.submitted.length, o⟩]
      submitted := s.submitted ++ [o]
      owner := .idle } := by
  have halive := h.alive_of (by rw [ho]; exact fun e => by cases e)
    fun k => by rw [ho]; exact fun e => by cases e
  have hsame : ∀ k, k < s.submitted.length → (s.submitted ++ [o])[k]? = s.submitted[k]? :=
    fun k hk => List.getElem?_append_left hk
  refine ⟨h.token, ?_, ?_, ?_, ?_, h.begun, h.ended, ?_, ?_, h.got, ?_, ?_⟩
  · show s.tasks ++ [_] = if s.alive then (numbered (s.submitted ++ [o])).drop s.taken else []
    rw [h.queue, halive, if_pos rfl, if_pos rfl, numbered_append,
      List.drop_append_of_le_length (by rw [length_numbered]; exact h.taken_le)]
  · show s.taken ≤ (s.submitted ++ [o]).length
    rw [List.length_append]
    exact Nat.le_add_right_of_le h.taken_le
  · exact fun _ _ => List.append_ne_nil_of_right_ne_nil _ (List.cons_ne_nil _ _)
  · intro t p hp
    have hout := h.held t p hp
    rw [hsame p.id (List.getElem?_eq_some_iff.mp hout).1]
    exact hout
  · intro k o'
    rw [h.ready]
    exact and_congr_right fun hk => by rw [hsame k (h.completed_lt hk)]
  · intro k
    rw [h.broken]
    exact iff_of_false (fun hk => by rw [halive] at hk; cases hk.1)
      fun hk => by rw [show s.alive = false from hk.1] at halive; cases halive
  · rintro t (hdead | hpending)
    · exact h.joined t (.inl hdead)
    · exact absurd trivial hpending
  · exact fun _ => .inl rfl

theorem PoolInv.gets (h : PoolInv s) {k : ℕ} (ho : s.owner = .get k) (hk : s.shared k ≠ .notReady) :
    PoolInv { s with got := s.got ++ [(k, s.shared k)], owner := .idle } := by
  refine ⟨h.token, h.queue, h.taken_le, h.front, h.held, h.begun, h.ended, h.ready, h.broken, ?_,
    ?_, fun _ => .inl rfl⟩
  · intro k' r hr
    rcases List.mem_append.mp hr with hr | hr
    · exact h.got k' r hr
    · obtain ⟨rfl, rfl⟩ := Prod.mk.inj (List.mem_singleton.mp hr)
      exact ⟨rfl, hk⟩
  · rintro t (hdead | hpending)
    · exact h.joined t (.inl hdead)
    · exact absurd trivial hpending

/-- `m_tasks` is destroyed, and nobody has a task. -/
theorem PoolInv.clears (h : PoolInv s) (ho : s.owner = .destroy []) :
    PoolInv { s with
      tasks := []
      shared := fun k => if s.tasks.any (·.id == k) then .broken else s.shared k
      alive := false
      owner := .idle } := by
  have halive := h.alive_of (by rw [ho]; exact fun e => by cases e)
    fun k => by rw [ho]; exact fun e => by cases e
  have hexited : ∀ t, s.workers t = .exited := fun t =>
    h.joined t (.inr (by rw [ho]; exact List.not_mem_nil))
  have hleft : ∀ k, s.tasks.any (·.id == k) = true ↔ s.taken ≤ k ∧ k < s.submitted.length := by
    intro k
    rw [← mem_drop_numbered, h.queue, halive, if_pos rfl, List.any_eq_true]
    simp only [beq_iff_eq]
  have hdone : ∀ k, k ∈ s.completed → s.tasks.any (·.id == k) = false := fun k hk => by
    rw [Bool.eq_false_iff]
    intro hany
    have := h.executed_lt (completed_executed h.ended hk)
    have := ((hleft k).mp hany).1
    omega
  have hkeep : ∀ k, s.shared k ≠ .notReady → s.tasks.any (·.id == k) = false := fun k hk => by
    cases hsh : s.shared k with
    | notReady => exact absurd hsh hk
    | ready o => exact hdone k ((h.ready k o).mp hsh).1
    | broken => rw [((h.broken k).mp hsh).1] at halive; cases halive
  refine ⟨h.token, rfl, h.taken_le, fun t ht => ?_, h.held, h.begun, h.ended, fun k o => ?_,
    fun k => ?_, fun k r hr => ?_, fun t _ => hexited t, fun _ => .inl rfl⟩
  · rw [hexited t] at ht
    cases ht
  · show (if s.tasks.any (·.id == k) then Shared.broken else s.shared k) = .ready o ↔ _
    rw [← h.ready]
    split
    · rename_i hany
      refine iff_of_false (fun e => by cases e) fun e => ?_
      rw [hkeep k (by rw [e]; exact fun e => by cases e)] at hany
      cases hany
    · exact Iff.rfl
  · show (if s.tasks.any (·.id == k) then Shared.broken else s.shared k) = .broken ↔
      false = false ∧ s.taken ≤ k ∧ k < s.submitted.length
    rw [← hleft k]
    split
    · rename_i hany
      exact iff_of_true rfl ⟨rfl, hany⟩
    · rename_i hany
      refine iff_of_false (fun e => ?_) fun e => hany e.2
      rw [((h.broken k).mp e).1] at halive
      cases halive
  · obtain ⟨hsame, hready⟩ := h.got k r hr
    refine ⟨?_, hready⟩
    show r = if s.tasks.any (·.id == k) then Shared.broken else s.shared k
    rw [hkeep k (hsame ▸ hready), if_neg Bool.false_ne_true, hsame]

theorem PoolInv.owner_step (h : PoolInv s) {pc : OwnerPc n} (hpc : s.owner = pc)
    (hs : s.ownerStep pc = some s') : PoolInv s' := by
  cases pc with
  | idle => cases hs
  | emplaceBack o =>
      have halive := h.alive_of (by rw [hpc]; exact fun e => by cases e)
        fun k => by rw [hpc]; exact fun e => by cases e
      obtain rfl := Option.some.inj hs
      refine ⟨h.token, h.queue, h.taken_le, h.front, h.held, h.begun, h.ended, h.ready, h.broken,
        h.got, fun t ht => h.joined t (ht.imp_right fun hn => absurd trivial hn), fun hd => ?_⟩
      rw [show s.alive = false from hd] at halive
      cases halive
  | emplacing o =>
      obtain rfl := Option.some.inj hs
      exact h.submits hpc
  | get k =>
      simp only [ThreadPool.ownerStep] at hs
      split at hs
      next => cases hs
      next hk =>
        obtain rfl := Option.some.inj hs
        exact h.gets hpc hk
  | destroy rest =>
      have hjoined := h.joined
      have halive := h.alive_of (by rw [hpc]; exact fun e => by cases e)
        fun k => by rw [hpc]; exact fun e => by cases e
      rw [hpc] at hjoined
      cases rest with
      | nil =>
          obtain rfl := Option.some.inj hs
          exact h.clears hpc
      | cons i rest =>
          obtain rfl := Option.some.inj hs
          refine ⟨h.token, h.queue, h.taken_le, h.front, h.held, h.begun, h.ended, h.ready,
            h.broken, h.got, fun t ht => hjoined t (ht.imp_right ?_), fun hd => ?_⟩
          · exact fun hn hmem => hn (List.mem_cons.mp hmem)
          · rw [show s.alive = false from hd] at halive
            cases halive
  | join i rest =>
      have hjoined := h.joined
      have halive := h.alive_of (by rw [hpc]; exact fun e => by cases e)
        fun k => by rw [hpc]; exact fun e => by cases e
      rw [hpc] at hjoined
      simp only [ThreadPool.ownerStep] at hs
      split at hs
      next hexited =>
        obtain rfl := Option.some.inj hs
        refine ⟨h.token, h.queue, h.taken_le, h.front, h.held, h.begun, h.ended, h.ready, h.broken,
          h.got, fun t ht => ?_, fun hd => ?_⟩
        · by_cases e : t = i
          · rw [e]
            exact hexited
          · exact hjoined t (ht.imp_right fun hn hmem => hn (hmem.resolve_left e))
        · rw [show s.alive = false from hd] at halive
          cases halive
      next => cases hs

theorem owner_was_calm {pc : OwnerPc n} (hs : s.ownerStep pc = some s')
    (hcalm : s'.raced = false) : s.raced = false := by
  cases pc with
  | idle => cases hs
  | emplaceBack o =>
      obtain rfl := Option.some.inj hs
      exact (Bool.or_eq_false_iff.mp hcalm).1
  | emplacing o =>
      obtain rfl := Option.some.inj hs
      exact hcalm
  | destroy rest =>
      cases rest <;> (obtain rfl := Option.some.inj hs; exact hcalm)
  | get k =>
      simp only [ThreadPool.ownerStep] at hs
      split at hs
      · cases hs
      · obtain rfl := Option.some.inj hs
        exact hcalm
  | join i rest =>
      simp only [ThreadPool.ownerStep] at hs
      split at hs
      · obtain rfl := Option.some.inj hs
        exact hcalm
      · cases hs

/-- **Every step keeps the invariant**, as long as no two accesses have overlapped. -/
theorem PoolInv.step (h : PoolInv s) (hcalm : s.raced = false) {a : PoolAction n}
    (hs : s.step a = some s') : PoolInv s' := by
  have hcall : ∀ pc : OwnerPc n, (∀ t, pc.pending t) →
      (s.alive = false → pc = .idle ∨ ∃ k, pc = .get k) → PoolInv { s with owner := pc } :=
    fun pc hall hdead => ⟨h.token, h.queue, h.taken_le, h.front, h.held, h.begun, h.ended, h.ready,
      h.broken, h.got, fun t ht => h.joined t (ht.imp_right fun hn => absurd (hall t) hn), hdead⟩
  cases a with
  | submit o =>
      simp only [ThreadPool.step] at hs
      split at hs
      next hc =>
        obtain rfl := Option.some.inj hs
        exact hcall _ (fun _ => trivial)
          fun hd => absurd hc.2 (by rw [hd]; exact Bool.false_ne_true)
      next => cases hs
  | get k =>
      simp only [ThreadPool.step] at hs
      split at hs
      next =>
        obtain rfl := Option.some.inj hs
        exact hcall _ (fun _ => trivial) fun _ => .inr ⟨k, rfl⟩
      next => cases hs
  | destroy =>
      simp only [ThreadPool.step] at hs
      split at hs
      next hc =>
        obtain rfl := Option.some.inj hs
        exact hcall _ (fun t => List.mem_finRange t)
          fun hd => absurd hc.2 (by rw [hd]; exact Bool.false_ne_true)
      next => cases hs
  | owner => exact h.owner_step rfl hs
  | worker t => exact h.worker_step (worker_cases hs)
  | corrupt tasks => simp [ThreadPool.step, hcalm] at hs

/-- A race is never undone. -/
theorem was_calm {a : PoolAction n} (hs : s.step a = some s') (hcalm : s'.raced = false) :
    s.raced = false := by
  cases a with
  | submit o | get k | destroy =>
      simp only [ThreadPool.step] at hs
      split at hs
      · obtain rfl := Option.some.inj hs
        exact hcalm
      · cases hs
  | owner => exact owner_was_calm hs hcalm
  | worker t => exact (worker_cases hs).frame.was_calm hcalm
  | corrupt tasks =>
      simp only [ThreadPool.step] at hs
      split at hs
      · obtain rfl := Option.some.inj hs
        exact hcalm
      · cases hs

end Steps

theorem poolInv_reach {s : ThreadPool n} (h : Reach ThreadPool.step (.start n) s) :
    s.raced = false → PoolInv s :=
  h.invariant (I := fun s => s.raced = false → PoolInv s) (fun _ => poolInv_start n)
    fun _ _ _ hI _ hs hcalm => (hI (was_calm hs hcalm)).step (was_calm hs hcalm) hs

/-! ## 3. Every task at most once, in order -/

/-- Once the pool is gone, every task that was taken has been executed and has its result. -/
theorem PoolInv.all_done {s : ThreadPool n} (h : PoolInv s) (hd : s.alive = false) {k : ℕ}
    (hk : k < s.taken) : k ∈ s.executed ∧ k ∈ s.completed := by
  have hexited : ∀ t, s.workers t = .exited := fun t => h.joined t (.inl hd)
  have hbegun := h.begun
  have hended := h.ended
  simp only [hexited, WorkerPc.waiting, WorkerPc.ran, bagOf_none, add_zero] at hbegun hended
  have hmem : k ∈ s.executed := by
    rw [← Multiset.mem_coe, hbegun]
    exact Multiset.mem_range.mpr hk
  refine ⟨hmem, ?_⟩
  rw [← Multiset.mem_coe, hended]
  exact hmem

/-- **The law of the pool**, until a `Submit` overlaps with a worker's access to the list. No two
    workers are at the list at once, and none takes a task from an empty one. Tasks leave the list
    in the order of submission, and each is executed at most once. What `get` has given is how the
    task ended, and the task was executed; or, once the pool is gone, that its promise was broken,
    and then it never was. Of a pool that is gone the tasks taken have been executed, the others are
    broken promises. -/
theorem pool_runs_in_order {s : ThreadPool n} (h : Reach ThreadPool.step (.start n) s)
    (hcalm : s.raced = false) :
    (∀ t u, (s.workers t).inMtx = true → (s.workers u).inMtx = true → t = u) ∧
    (∀ t, (s.workers t).taking = true → s.tasks ≠ []) ∧
    (s.alive = true → s.tasks = (numbered s.submitted).drop s.taken) ∧
    s.executed.Nodup ∧ (∀ k ∈ s.executed, k < s.taken) ∧
    (∀ k r, (k, r) ∈ s.got →
      (∃ o, r = .ready o ∧ s.submitted[k]? = some o ∧ k ∈ s.executed) ∨
      (r = .broken ∧ k ∉ s.executed ∧ s.alive = false)) ∧
    (s.alive = false → ∀ k, ∀ hk : k < s.submitted.length,
      if k < s.taken then k ∈ s.executed ∧ s.shared k = .ready s.submitted[k]
      else k ∉ s.executed ∧ s.shared k = .broken) := by
  have hI := poolInv_reach h hcalm
  refine ⟨fun t u ht hu => hI.token.unique ht hu, hI.front, fun ha => ?_, hI.executed_nodup,
    fun k hk => hI.executed_lt hk, fun k r hr => ?_, fun hd k hk => ?_⟩
  · rw [hI.queue, ha, if_pos rfl]
  · obtain ⟨hsame, hready⟩ := hI.got k r hr
    cases hsh : s.shared k with
    | notReady => exact absurd (hsame.trans hsh) hready
    | ready o =>
        obtain ⟨hdone, hout⟩ := (hI.ready k o).mp hsh
        exact .inl ⟨o, hsame.trans hsh, hout, completed_executed hI.ended hdone⟩
    | broken =>
        obtain ⟨hd, hle, -⟩ := (hI.broken k).mp hsh
        exact .inr ⟨hsame.trans hsh, fun hk => Nat.not_lt_of_le hle (hI.executed_lt hk), hd⟩
  · split
    · rename_i hlt
      obtain ⟨hexecuted, hdone⟩ := hI.all_done hd hlt
      exact ⟨hexecuted, (hI.ready k _).mpr ⟨hdone, List.getElem?_eq_getElem hk⟩⟩
    · rename_i hge
      exact ⟨fun hk' => hge (hI.executed_lt hk'),
        (hI.broken k).mpr ⟨hd, Nat.le_of_not_lt hge, hk⟩⟩

/-- Two tasks. Worker `u` has found the list empty when the first one is submitted, worker `t` has
    found that one when the second one is submitted, and the second one finds the destructor. -/
def lateTask (t u v : Fin n) : List (PoolAction n) :=
  [PoolAction.worker u, .worker u, .submit .returns, .worker u, .worker u, .owner, .worker u,
    .owner] ++ List.replicate 4 (PoolAction.worker t) ++
    [PoolAction.submit (.throws "late"), .owner, .owner] ++
    List.replicate 5 (PoolAction.worker t) ++
    [PoolAction.destroy, .owner, .worker t, .owner, .owner, .worker u, .owner, .owner, .worker v,
      .owner, .owner, .get 1, .owner]

theorem pool_runs_in_order_lateTask :
    ∃ s : ThreadPool 3, Reach ThreadPool.step (.start 3) s ∧ s.raced = false ∧ s.alive = false ∧
      s.executed = [0] ∧ s.got = [(1, .broken)] ∧ s.shared 0 = .ready .returns ∧
      (∀ t u, (s.workers t).inMtx = true → (s.workers u).inMtx = true → t = u) ∧
      ∀ k, ∀ hk : k < s.submitted.length,
        if k < s.taken then k ∈ s.executed ∧ s.shared k = .ready s.submitted[k]
        else k ∉ s.executed ∧ s.shared k = .broken := by
  obtain ⟨s, hs, hp⟩ := reach_of_run ThreadPool.step (fun _ _ => true) (.start 3)
    (lateTask 0 1 2) (fun s => decide (s.raced = false ∧ s.alive = false ∧ s.executed = [0] ∧
      s.got = [(1, .broken)] ∧ s.shared 0 = .ready .returns)) (by decide +kernel)
  obtain ⟨hcalm, hdead, hexecuted, hgot, hready⟩ := of_decide_eq_true hp
  obtain ⟨hexcl, -, -, -, -, -, hgone⟩ := pool_runs_in_order hs.reach hcalm
  exact ⟨s, hs.reach, hcalm, hdead, hexecuted, hgot, hready, hexcl, hgone hdead⟩

/-! ## 4. The race of `Submit` -/

section Race

variable {s : ThreadPool n} {t : Fin n} {o : Outcome}

theorem listBusy_of (ht : (s.workers t).atList = true) : s.listBusy = true :=
  List.any_eq_true.mpr ⟨t, List.mem_finRange t, ht⟩

/-- `emplace_back` begins inside an access of a worker. -/
theorem step_overlap (ho : s.owner = .emplaceBack o) (ht : (s.workers t).atList = true) :
    s.step .owner = some { s with raced := true, owner := .emplacing o } := by
  simp only [ThreadPool.step, ho, ThreadPool.ownerStep, listBusy_of ht, Bool.or_true]

/-- Worker `t` is inside `empty`, with `m_mtx`, when `Submit` begins. -/
def midTest (t : Fin n) (o : Outcome) : List (PoolAction n) :=
  [PoolAction.worker t, .worker t, .worker t, .submit o]

theorem run_midTest (t : Fin n) (o : Outcome) :
    run ThreadPool.step (.start n) (midTest t o) = some { ThreadPool.start n with
      mtx := some t
      workers := Function.update (fun _ => .stopRequested) t .testing
      owner := .emplaceBack o } := by
  simp [midTest, run, ThreadPool.step, ThreadPool.start, ThreadPool.workerStep, ThreadPool.goto,
    ThreadPool.access, OwnerPc.atList]

end Race

/-- **Nothing keeps `Submit` from racing**: in a pool with a thread the first `Submit` can overlap
    with a worker's `empty`, and then its task may be in the list no more and taken by nobody. The
    law of the pool needs its hypothesis. -/
theorem submit_races (t : Fin n) (o : Outcome) :
    ∃ s, Reach ThreadPool.step (.start n) s ∧ s.raced = true ∧ s.alive = true ∧
      s.submitted = [o] ∧ s.taken = 0 ∧ s.tasks = [] := by
  have hmid := reach_run (run_midTest t o)
  have hbusy : (Function.update (fun _ => WorkerPc.stopRequested) t .testing t).atList = true := by
    rw [Function.update_self]
    rfl
  have hrace := hmid.trans (.single (a := .owner) trivial (step_overlap rfl hbusy))
  have hin := hrace.trans (.single (a := .owner) trivial rfl)
  exact ⟨_, hin.trans (.single (a := .corrupt []) trivial rfl), rfl, rfl, rfl, rfl, rfl⟩

end HseMultithreading.Structured
