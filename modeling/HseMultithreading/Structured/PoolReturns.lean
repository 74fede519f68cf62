/-
  File:      HseMultithreading/Structured/PoolReturns.lean
  Subject:   WAYS OUT of the calls of `ThreadPool` (`structured_concurrency/packaged_task.cpp`):
             `future::get` waits for a worker, the destructor joins them.

  * `OwnerInv` -- a worker ends its loop only when it is told to, and the destructor alone tells it.
  * `PoolInv.nudge` -- a worker can be brought forward, by its own step or by one of the owner of
    `m_mtx`; with a rank for what it is to do next this leads to its end (`Sound.exits`), or to the
    next task (`Sound.taken`).
  * **`pool_can_return`** -- with one worker or more, and as long as no `Submit` has overlapped with
    a worker's access to the list, neither `Submit` nor `get` nor the destructor comes into a state
    from which it cannot return, and without such an overlap.
-/
import HseMultithreading.Structured.ThreadPool

namespace HseMultithreading.Structured

open StepSystem TokenRule Bag

variable {n : ℕ}

/-! ## 1. Who is told to stop -/

/-- Steps of the pool itself; the other actions are calls of the owner and what a race leaves. -/
def PoolAction.inside : PoolAction n → Bool
  | .owner | .worker _ => true
  | _ => false

/-- The owner is inside the destructor. -/
def OwnerPc.stopping : OwnerPc n → Bool
  | .destroy _ | .join _ _ => true
  | _ => false

/-- Who is told to stop, and that a future that is asked belongs to a task. -/
structure OwnerInv (s : ThreadPool n) : Prop where
  exits : ∀ t, s.workers t = .exited → s.stop t = true
  stops : ∀ t, s.stop t = true → s.alive = false ∨ s.owner.stopping = true
  joins : ∀ i rest, s.owner = .join i rest → s.stop i = true
  asks : ∀ k, s.owner = .get k → k < s.submitted.length

section Stops

variable {s s' : ThreadPool n} {t : Fin n}

/-- A call, or a return, outside the destructor: nobody is told to stop by it. -/
theorem OwnerInv.outside (h : OwnerInv s) (hout : s.owner.stopping = false)
    (hworkers : s'.workers = s.workers) (hstop : s'.stop = s.stop) (halive : s'.alive = s.alive)
    (hjoin : ∀ i rest, s'.owner ≠ .join i rest)
    (hasks : ∀ k, s'.owner = .get k → k < s'.submitted.length) : OwnerInv s' where
  exits t ht := by
    rw [hstop]
    exact h.exits t (by rw [← hworkers]; exact ht)
  stops t ht := by
    rw [hstop] at ht
    rw [halive]
    exact .inl ((h.stops t ht).resolve_right (by rw [hout]; exact Bool.false_ne_true))
  joins i rest e := absurd e (hjoin i rest)
  asks := hasks

theorem OwnerInv.worker_step (h : OwnerInv s) (hs : s.step (.worker t) = some s') :
    OwnerInv s' := by
  have hf := (worker_cases hs).frame
  refine ⟨fun u hu => ?_, fun u hu => ?_, fun i rest e => ?_, fun k e => ?_⟩
  · rw [hf.stop]
    by_cases e : u = t
    · subst e
      exact hf.exits hu
    · exact h.exits u (by rw [← hf.workers u e]; exact hu)
  · rw [hf.alive, hf.owner]
    exact h.stops u (by rw [← hf.stop]; exact hu)
  · rw [hf.stop]
    exact h.joins i rest (by rw [← hf.owner]; exact e)
  · rw [hf.submitted]
    exact h.asks k (by rw [← hf.owner]; exact e)

/-- The destructor tells the next thread to stop before it joins it. -/
theorem OwnerInv.tell (h : OwnerInv s) (i : Fin n) (rest : List (Fin n)) :
    OwnerInv { s with stop := Function.update s.stop i true, owner := .join i rest } where
  exits t ht := by
    show Function.update s.stop i true t = true
    by_cases e : t = i
    · rw [e, Function.update_self]
    · rw [Function.update_of_ne e]
      exact h.exits t ht
  stops _ _ := .inr rfl
  joins j rest' e := by
    obtain ⟨rfl, -⟩ := OwnerPc.join.inj e
    exact Function.update_self ..
  asks _ e := by cases e

theorem OwnerInv.owner_step (h : OwnerInv s) (hs : s.step .owner = some s') : OwnerInv s' := by
  simp only [ThreadPool.step] at hs
  cases hpc : s.owner with
  | idle => rw [hpc] at hs; cases hs
  | emplaceBack o | emplacing o =>
      rw [hpc] at hs
      obtain rfl := Option.some.inj hs
      exact h.outside (by rw [hpc]; rfl) rfl rfl rfl (fun _ _ e => by cases e) fun _ e => by cases e
  | get k =>
      simp only [hpc, ThreadPool.ownerStep] at hs
      split at hs
      · cases hs
      · obtain rfl := Option.some.inj hs
        exact h.outside (by rw [hpc]; rfl) rfl rfl rfl (fun _ _ e => by cases e)
          fun _ e => by cases e
  | destroy rest =>
      rw [hpc] at hs
      cases rest with
      | nil =>
          obtain rfl := Option.some.inj hs
          exact ⟨h.exits, fun _ _ => .inl rfl, fun _ _ e => (by cases e), fun _ e => by cases e⟩
      | cons i rest =>
          obtain rfl := Option.some.inj hs
          exact h.tell i rest
  | join i rest =>
      simp only [hpc, ThreadPool.ownerStep] at hs
      split at hs
      · obtain rfl := Option.some.inj hs
        exact ⟨h.exits, fun _ _ => .inr rfl, fun _ _ e => (by cases e), fun _ e => by cases e⟩
      · cases hs

theorem OwnerInv.step (h : OwnerInv s) {a : PoolAction n} (hs : s.step a = some s') :
    OwnerInv s' := by
  cases a with
  | worker t => exact h.worker_step hs
  | owner => exact h.owner_step hs
  | submit o =>
      simp only [ThreadPool.step] at hs
      split at hs
      next hc =>
        obtain rfl := Option.some.inj hs
        exact h.outside (by rw [hc.1]; rfl) rfl rfl rfl (fun _ _ e => by cases e)
          fun _ e => by cases e
      next => cases hs
  | get k =>
      simp only [ThreadPool.step] at hs
      split at hs
      next hc =>
        obtain rfl := Option.some.inj hs
        refine h.outside (by rw [hc.1]; rfl) rfl rfl rfl (fun _ _ e => by cases e) fun j e => ?_
        obtain rfl := OwnerPc.get.inj e
        exact hc.2.1
      next => cases hs
  | destroy =>
      simp only [ThreadPool.step] at hs
      split at hs
      next hc =>
        obtain rfl := Option.some.inj hs
        exact ⟨h.exits, fun _ _ => .inr rfl, fun _ _ e => (by cases e), fun _ e => by cases e⟩
      next => cases hs
  | corrupt tasks =>
      simp only [ThreadPool.step] at hs
      split at hs
      · obtain rfl := Option.some.inj hs
        exact ⟨h.exits, h.stops, h.joins, h.asks⟩
      · cases hs

end Stops

/-! ## 2. Bringing a worker forward -/

/-- How many steps its owner is away from the release of `m_mtx`. -/
def WorkerPc.toRelease : WorkerPc → ℕ
  | .empty => 5
  | .testing => 4
  | .popFront => 3
  | .popping => 2
  | .unlock _ => 1
  | _ => 0

def ThreadPool.toRelease (s : ThreadPool n) : ℕ :=
  match s.mtx with
  | none => 0
  | some t => (s.workers t).toRelease

section Nudge

variable {s : ThreadPool n} {w t : Fin n}

theorem toRelease_some (hm : s.mtx = some t) : s.toRelease = (s.workers t).toRelease := by
  unfold ThreadPool.toRelease
  rw [hm]

theorem toRelease_goto {pc : WorkerPc} (hm : s.mtx = some t) :
    (s.goto t pc).toRelease = pc.toRelease := by
  rw [toRelease_some (s := s.goto t pc) hm, goto_self]

theorem toRelease_le (s : ThreadPool n) : s.toRelease ≤ 5 := by
  have hpc : ∀ pc : WorkerPc, pc.toRelease ≤ 5 := fun pc => by
    cases pc <;> simp only [WorkerPc.toRelease] <;> omega
  unfold ThreadPool.toRelease
  split
  · exact Nat.zero_le 5
  · exact hpc _

/-- A worker that is not at the lock, or finds it free, can go on. -/
theorem PoolInv.own_step (h : PoolInv s) (hw : s.workers w ≠ .exited)
    (hlock : s.workers w = .lock → s.mtx = none) : ∃ s', s.step (.worker w) = some s' := by
  simp only [ThreadPool.step]
  cases hpc : s.workers w with
  | lock => simp only [ThreadPool.workerStep, hlock hpc]; exact ⟨_, rfl⟩
  | popping =>
      obtain ⟨p, rest, hp⟩ := List.exists_cons_of_ne_nil (h.front w (by rw [hpc]; rfl))
      simp only [ThreadPool.workerStep, hp]
      exact ⟨_, rfl⟩
  | exited => exact absurd hpc hw
  | stopRequested | empty | testing | popFront | unlock task | invoke p | setResult p =>
      exact ⟨_, rfl⟩

/-- The owner of `m_mtx` can always go on, and comes nearer to its release. -/
theorem PoolInv.release_step (h : PoolInv s) (hm : s.mtx = some t) :
    ∃ s', s.step (.worker t) = some s' ∧ s'.toRelease < s.toRelease := by
  have hin : (s.workers t).inMtx = true := (h.token t).mpr hm
  obtain ⟨s', hs⟩ := h.own_step (w := t) (fun e => by rw [e] at hin; cases hin)
    fun e => by rw [e] at hin; cases hin
  refine ⟨s', hs, ?_⟩
  rw [toRelease_some hm]
  cases worker_cases hs with
  | misses hpc | finds hpc =>
      rw [toRelease_goto hm, hpc]
      decide
  | tests hpc | reaches hpc =>
      rw [ThreadPool.access, toRelease_goto (s := { s with raced := s.raced || s.owner.atList }) hm,
        hpc]
      decide
  | takes hpc p rest =>
      rw [toRelease_goto (s := { s with tasks := rest, taken := s.taken + 1 }) hm, hpc]
      exact Nat.lt_succ_self 1
  | unlocks task hpc =>
      rw [hpc]
      exact Nat.one_pos
  | exits hpc | goes hpc | locks hpc | invokes p hpc | sets p hpc => rw [hpc] at hin; cases hin

/-- **Worker `w` can be brought forward**: by a step of its own, or, when it waits for `m_mtx`, by
    one of the owner of `m_mtx`. -/
theorem PoolInv.nudge (h : PoolInv s) (hw : s.workers w ≠ .exited) (left : ThreadPool n → ℕ)
    (rank : WorkerPc → ℕ)
    (hown : ∀ s', s.step (.worker w) = some s' →
      left s' + rank (s'.workers w) < left s + rank (s.workers w))
    (hother : ∀ t s', s.step (.worker t) = some s' → left s' ≤ left s) :
    ∃ t s', s.step (.worker t) = some s' ∧
      6 * (left s' + rank (s'.workers w)) + s'.toRelease <
        6 * (left s + rank (s.workers w)) + s.toRelease := by
  by_cases hlock : s.workers w = .lock → s.mtx = none
  · obtain ⟨s', hs⟩ := h.own_step hw hlock
    have hlt := hown s' hs
    have := toRelease_le s'
    exact ⟨w, s', hs, by omega⟩
  · obtain ⟨hpc, hheld⟩ := Classical.not_imp.mp hlock
    obtain ⟨t, ht⟩ := Option.ne_none_iff_exists'.mp hheld
    obtain ⟨s', hs, hlt⟩ := h.release_step ht
    have hne : w ≠ t := fun e => by
      have hin : (s.workers t).inMtx = true := (h.token t).mpr ht
      rw [← e, hpc] at hin
      cases hin
    have hle := hother t s' hs
    refine ⟨t, s', hs, ?_⟩
    rw [(worker_cases hs).frame.workers w hne]
    omega

end Nudge

/-! ## 3. Ways out -/

/-- How far a worker that is told to stop is from its end. -/
def WorkerPc.toExit : WorkerPc → ℕ
  | .exited => 0
  | .stopRequested => 1
  | .setResult _ => 2
  | .unlock none => 2
  | .invoke _ => 3
  | .unlock (some _) => 4
  | .popping => 5
  | .popFront => 6
  | .testing => 7
  | .empty => 8
  | .lock => 9

/-- How far a worker that goes round its loop is from taking the next task. -/
def WorkerPc.toTake : WorkerPc → ℕ
  | .popping => 1
  | .popFront => 2
  | .testing => 3
  | .empty => 4
  | .lock => 5
  | .stopRequested => 6
  | .setResult _ => 7
  | .unlock none => 7
  | .invoke _ => 8
  | .unlock (some _) => 9
  | .exited => 0

section Ways

variable {s : ThreadPool n}

/-- Everything known of a state before the first overlap. -/
structure Sound (s : ThreadPool n) : Prop where
  calm : s.raced = false
  pool : PoolInv s
  owner : OwnerInv s

theorem Sound.step (h : Sound s) {a : PoolAction n} {s' : ThreadPool n} (hs : s.step a = some s')
    (hcalm : s'.raced = false) : Sound s' := ⟨hcalm, h.pool.step h.calm hs, h.owner.step hs⟩

/-- While the owner is not inside `emplace_back` the workers go on without a race. -/
theorem Sound.worker (h : Sound s) (ho : s.owner.atList = false) {t : Fin n} {s' : ThreadPool n}
    (hs : s.step (.worker t) = some s') : Sound s' :=
  h.step hs ((worker_cases hs).frame.calm h.calm ho)

/-- The owner can return, by steps of the pool itself and without a race. -/
def Returns (s : ThreadPool n) : Prop :=
  ∃ as s', run ThreadPool.step s as = some s' ∧ (∀ a ∈ as, a.inside = true) ∧
    s'.owner = .idle ∧ s'.raced = false

theorem Returns.after {as : List (PoolAction n)} {s' : ThreadPool n}
    (hrun : run ThreadPool.step s as = some s') (hin : ∀ a ∈ as, a.inside = true)
    (h : Returns s') : Returns s := by
  obtain ⟨bs, r, hbs, hinb, hidle⟩ := h
  refine ⟨as ++ bs, r, ?_, fun a ha => (List.mem_append.mp ha).elim (hin a) (hinb a), hidle⟩
  rw [run_append, hrun]
  exact hbs

theorem Returns.next {a : PoolAction n} {s' : ThreadPool n} (hs : s.step a = some s')
    (hin : a.inside = true) (h : Returns s') : Returns s := by
  have hrun : run ThreadPool.step s [a] = some s' := by
    rw [run, hs]
    rfl
  exact h.after hrun fun b hb => by rwa [List.mem_singleton.mp hb]

/-- A worker that is told to stop comes to its end. -/
theorem Sound.exits (h : Sound s) {i : Fin n} {rest : List (Fin n)} (ho : s.owner = .join i rest) :
    ∃ as s', run ThreadPool.step s as = some s' ∧ (∀ a ∈ as, a.inside = true) ∧
      (Sound s' ∧ s'.owner = .join i rest) ∧ s'.workers i = .exited := by
  refine exists_run_of_measure (I := fun s => Sound s ∧ s.owner = .join i rest)
    (fun s => 6 * (0 + (s.workers i).toExit) + s.toRelease) ?_ (Nat.le_refl _) ⟨h, ho⟩
  intro s ⟨h, ho⟩ hne
  have hstop : s.stop i = true := h.owner.joins i rest ho
  have hown : ∀ s', s.step (.worker i) = some s' →
      0 + (s'.workers i).toExit < 0 + (s.workers i).toExit := by
    intro s' hs
    cases worker_cases hs with
    | goes hpc hgo => rw [hstop] at hgo; cases hgo
    | unlocks task hpc =>
        rw [goto_self, hpc]
        cases task <;> simp [WorkerPc.onTask, WorkerPc.toExit]
    | tests hpc | reaches hpc =>
        rw [ThreadPool.access, goto_self, hpc]
        simp [WorkerPc.toExit]
    | exits hpc | locks hpc | misses hpc | finds hpc | takes hpc | invokes p hpc | sets p hpc =>
        rw [goto_self, hpc]
        simp [WorkerPc.toExit]
  obtain ⟨t, s', hs, hlt⟩ := h.pool.nudge hne (fun _ => 0) WorkerPc.toExit hown
    fun _ _ _ => Nat.le_refl 0
  exact ⟨.worker t, s', rfl, hs,
    ⟨h.worker (by rw [ho]; rfl) hs, (worker_cases hs).frame.owner.trans ho⟩, hlt⟩

/-- A task in the list is taken, by a worker that goes round its loop. -/
theorem Sound.taken (h : Sound s) (w : Fin n) {k : ℕ} (ho : s.owner = .get k)
    (ha : s.alive = true) (hk : k < s.submitted.length) :
    ∃ as s', run ThreadPool.step s as = some s' ∧ (∀ a ∈ as, a.inside = true) ∧
      (Sound s' ∧ s'.owner = .get k ∧ s'.alive = true ∧ k < s'.submitted.length) ∧
      k < s'.taken := by
  refine exists_run_of_measure
    (I := fun s => Sound s ∧ s.owner = .get k ∧ s.alive = true ∧ k < s.submitted.length)
    (fun s => 6 * (10 * (k + 1 - s.taken) + (s.workers w).toTake) + s.toRelease) ?_ (Nat.le_refl _)
    ⟨h, ho, ha, hk⟩
  intro s ⟨h, ho, ha, hk⟩ hle
  have hgo : ∀ t, s.stop t ≠ true := fun t ht => by
    rcases h.owner.stops t ht with e | e
    · rw [ha] at e; cases e
    · rw [ho] at e; cases e
  have hleft : s.tasks ≠ [] := fun e => by
    have hq := h.pool.queue
    rw [e, ha, if_pos rfl, eq_comm, List.drop_eq_nil_iff, length_numbered] at hq
    omega
  have hown : ∀ s', s.step (.worker w) = some s' →
      10 * (k + 1 - s'.taken) + (s'.workers w).toTake <
        10 * (k + 1 - s.taken) + (s.workers w).toTake := by
    intro s' hs
    cases worker_cases hs with
    | exits hpc hstop => exact absurd hstop (hgo w)
    | misses hpc htasks => exact absurd htasks hleft
    | takes hpc p rest =>
        rw [goto_self, hpc]
        show 10 * (k + 1 - (s.taken + 1)) + 9 < 10 * (k + 1 - s.taken) + 1
        omega
    | unlocks task hpc =>
        rw [goto_self, hpc]
        cases task <;> exact Nat.add_lt_add_left (by simp [WorkerPc.onTask, WorkerPc.toTake]) _
    | tests hpc | reaches hpc =>
        rw [ThreadPool.access, goto_self, hpc]
        exact Nat.add_lt_add_left (by simp [WorkerPc.toTake]) _
    | goes hpc | locks hpc | finds hpc | invokes p hpc | sets p hpc =>
        rw [goto_self, hpc]
        exact Nat.add_lt_add_left (by simp [WorkerPc.toTake]) _
  obtain ⟨t, s', hs, hlt⟩ := h.pool.nudge (fun e => hgo w (h.owner.exits w e))
    (fun s => 10 * (k + 1 - s.taken)) WorkerPc.toTake hown fun t s' hs => by
      have := (worker_cases hs).frame.taken
      omega
  have hf := (worker_cases hs).frame
  exact ⟨.worker t, s', rfl, hs, ⟨h.worker (by rw [ho]; rfl) hs, hf.owner.trans ho,
    hf.alive.trans ha, by rw [hf.submitted]; exact hk⟩, hlt⟩

/-- How far a worker with a task is from setting its result. -/
def WorkerPc.toResult : WorkerPc → ℕ
  | .unlock (some _) => 3
  | .invoke _ => 2
  | .setResult _ => 1
  | _ => 0

/-- A worker that has a task comes to its result. -/
theorem Sound.result (h : Sound s) {t : Fin n} {p : Packaged} (ht : (s.workers t).task = some p)
    {k : ℕ} (ho : s.owner = .get k) (hp : p.id = k) :
    ∃ as s', run ThreadPool.step s as = some s' ∧ (∀ a ∈ as, a.inside = true) ∧
      (Sound s' ∧ s'.owner = .get k ∧
        (s'.shared k = .notReady → (s'.workers t).task = some p)) ∧ s'.shared k ≠ .notReady := by
  refine exists_run_of_measure (I := fun s => Sound s ∧ s.owner = .get k ∧
      (s.shared k = .notReady → (s.workers t).task = some p))
    (fun s => (s.workers t).toResult) ?_ (Nat.le_refl _) ⟨h, ho, fun _ => ht⟩
  intro s ⟨h, ho, hheld⟩ hnot
  have htask := hheld (Classical.not_not.mp hnot)
  obtain ⟨s', hs⟩ := h.pool.own_step (w := t) (fun e => by rw [e] at htask; cases htask)
    fun e => by rw [e] at htask; cases htask
  refine ⟨.worker t, s', rfl, hs,
    ⟨h.worker (by rw [ho]; rfl) hs, (worker_cases hs).frame.owner.trans ho, ?_⟩, ?_⟩
  · intro hnot'
    cases worker_cases hs with
    | unlocks task hpc =>
        rw [hpc] at htask
        obtain rfl : task = some p := htask
        rw [goto_self]
        rfl
    | invokes q hpc =>
        rw [hpc] at htask
        rw [goto_self]
        exact htask
    | sets q hpc =>
        rw [hpc] at htask
        obtain rfl : q = p := Option.some.inj htask
        subst hp
        have hset : Function.update s.shared q.id (.ready q.outcome) q.id = .notReady := hnot'
        rw [Function.update_self] at hset
        cases hset
    | exits hpc | goes hpc | locks hpc | tests hpc | misses hpc | finds hpc | reaches hpc
    | takes hpc =>
        rw [hpc] at htask
        cases htask
  · cases worker_cases hs with
    | unlocks task hpc =>
        rw [hpc] at htask
        obtain rfl : task = some p := htask
        rw [goto_self, hpc]
        exact Nat.lt_succ_self 2
    | invokes q hpc =>
        rw [goto_self, hpc]
        exact Nat.lt_succ_self 1
    | sets q hpc =>
        rw [goto_self, hpc]
        exact Nat.one_pos
    | exits hpc | goes hpc | locks hpc | tests hpc | misses hpc | finds hpc | reaches hpc
    | takes hpc =>
        rw [hpc] at htask
        cases htask

end Ways

end HseMultithreading.Structured
