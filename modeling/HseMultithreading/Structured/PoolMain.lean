/-
  File:      HseMultithreading/Structured/PoolMain.lean
  Subject:   THE PATTERN OF `main` in `structured_concurrency/packaged_task.cpp`: submit the tasks,
             ask their futures one after the other, and leave the scope of the pool.

  * `Script`, `Script.step` -- the pool with the calls its owner has still to make; between two of
    them every step of the pool may come.
  * `Stage` -- `main` is submitting, asking or destroying, and what it has got so far.
  * **`submit_all_get_all`** -- unless a `Submit` has overlapped with a worker's access to the list,
    each `get` gives the outcome of its own task, and every task is executed exactly once;
    `submit_all_get_all_main`: the four tasks of `main`.
-/
import HseMultithreading.Structured.PoolReturns

namespace HseMultithreading.Structured

open StepSystem

variable {n : ℕ}

/-- The pool and the calls its owner has still to make. -/
structure Script (n : ℕ) where
  pool : ThreadPool n
  rest : List (PoolAction n)

inductive ScriptAction (n : ℕ) where
  | call
  | inside (a : PoolAction n)

/-- The calls of the owner. -/
def PoolAction.isCall : PoolAction n → Bool
  | .submit _ | .get _ | .destroy => true
  | _ => false

def Script.step (c : Script n) : ScriptAction n → Option (Script n)
  | .call =>
    match c.rest with
    | [] => none
    | a :: rest => (c.pool.step a).map (⟨·, rest⟩)
  | .inside a => if a.isCall then none else (c.pool.step a).map (⟨·, c.rest⟩)

/-- `main`: the tasks are submitted, then their futures are asked one after the other, and the pool
    is destroyed. -/
def submitAllGetAll (n : ℕ) (os : List Outcome) : Script n :=
  ⟨.start n, os.map .submit ++ (List.range os.length).map .get ++ [.destroy]⟩

/-- What the first `m` calls of `get` give. -/
def answers (os : List Outcome) (m : ℕ) : List (ℕ × Shared) :=
  (os.take m).mapIdx fun k o => (k, .ready o)

/-- The task inside `Submit`. -/
def OwnerPc.submitting : OwnerPc n → List Outcome
  | .emplaceBack o | .emplacing o => [o]
  | _ => []

/-- **Where `main` stands.** -/
inductive Stage (os : List Outcome) : Script n → Prop where
  | submitting (s : ThreadPool n) (rest : List Outcome) (halive : s.alive = true)
      (hsub : s.submitted ++ s.owner.submitting ++ rest = os) (hgot : s.got = [])
      (hin : s.owner.stopping = false) (hget : ∀ k, s.owner ≠ .get k) :
      Stage os ⟨s, rest.map .submit ++ (List.range os.length).map .get ++ [.destroy]⟩
  | asking (s : ThreadPool n) (m : ℕ) (hm : m ≤ os.length) (halive : s.alive = true)
      (hsub : s.submitted = os)
      (hask : (s.owner = .idle ∧ s.got = answers os m) ∨
        ∃ k, s.owner = .get k ∧ m = k + 1 ∧ s.got = answers os k) :
      Stage os ⟨s, (List.range' m (os.length - m)).map .get ++ [.destroy]⟩
  | destroying (s : ThreadPool n) (hsub : s.submitted = os) (hgot : s.got = answers os os.length)
      (hin : s.owner.stopping = true ∨ s.owner = .idle ∧ s.alive = false) : Stage os ⟨s, []⟩

section Scripts

variable {os : List Outcome} {c c' : Script n}

theorem answers_succ {k : ℕ} {o : Outcome} (h : os[k]? = some o) :
    answers os (k + 1) = answers os k ++ [(k, .ready o)] := by
  obtain ⟨hk, rfl⟩ := List.getElem?_eq_some_iff.mp h
  unfold answers
  rw [List.take_succ_eq_append_getElem hk, List.mapIdx_concat, List.length_take,
    Nat.min_eq_left (Nat.le_of_lt hk)]

/-- The futures are asked when every task is submitted. -/
theorem Stage.ask {s : ThreadPool n} {rest : List (PoolAction n)} (halive : s.alive = true)
    (hsub : s.submitted = os) {m : ℕ} (hm : m ≤ os.length) (hgot : s.got = answers os m)
    {a : PoolAction n} {s' : ThreadPool n}
    (hrest : (List.range' m (os.length - m)).map .get ++ [.destroy] = a :: rest)
    (hs : s.step a = some s') : Stage os ⟨s', rest⟩ := by
  cases hlen : os.length - m with
  | zero =>
      rw [hlen] at hrest
      obtain ⟨rfl, rfl⟩ := List.cons.inj hrest
      simp only [ThreadPool.step] at hs
      split at hs
      · obtain rfl := Option.some.inj hs
        obtain rfl : m = os.length := by omega
        exact .destroying _ hsub hgot (.inl rfl)
      · cases hs
  | succ j =>
      rw [hlen, List.range'_succ] at hrest
      obtain ⟨rfl, rfl⟩ := List.cons.inj hrest
      simp only [ThreadPool.step] at hs
      split at hs
      · obtain rfl := Option.some.inj hs
        obtain rfl : j = os.length - (m + 1) := by omega
        exact .asking _ (m + 1) (by omega) halive hsub (.inr ⟨m, rfl, rfl, hgot⟩)
      · cases hs

/-- A call of the owner is made from outside. -/
theorem idle_of_call {s s' : ThreadPool n} {a : PoolAction n} (hin : a.isCall = true)
    (hs : s.step a = some s') : s.owner = .idle := by
  cases a with
  | submit o | get k | destroy =>
      simp only [ThreadPool.step] at hs
      split at hs
      · rename_i hc
        exact hc.1
      · cases hs
  | owner | worker t | corrupt tasks => cases hin

theorem asks_isCall {m j : ℕ} {a : PoolAction n} {rest : List (PoolAction n)}
    (h : (List.range' m j).map .get ++ [.destroy] = a :: rest) : a.isCall = true := by
  have hmem : a ∈ (List.range' m j).map PoolAction.get ++ [.destroy] := by
    rw [h]
    exact List.mem_cons_self
  rcases List.mem_append.mp hmem with ha | ha
  · obtain ⟨k, -, rfl⟩ := List.mem_map.mp ha
    rfl
  · rw [List.mem_singleton.mp ha]
    rfl

theorem submitting_idle : (OwnerPc.idle : OwnerPc n).submitting = [] := rfl

theorem Stage.call (h : Stage os c) (hs : c.step .call = some c') : Stage os c' := by
  cases h with
  | submitting s rest halive hsub hgot hin hget =>
      cases rest with
      | nil =>
          simp only [Script.step] at hs
          split at hs
          · cases hs
          · rename_i a rest hrest
            obtain ⟨s', hs', rfl⟩ := Option.map_eq_some_iff.mp hs
            rw [List.map_nil, List.nil_append, List.range_eq_range'] at hrest
            have hidle := idle_of_call (asks_isCall hrest) hs'
            rw [hidle, submitting_idle, List.append_nil, List.append_nil] at hsub
            exact .ask halive hsub (Nat.zero_le _) hgot hrest hs'
      | cons o rest =>
          obtain ⟨s', hs', rfl⟩ := Option.map_eq_some_iff.mp hs
          have hidle := idle_of_call rfl hs'
          simp only [ThreadPool.step] at hs'
          split at hs'
          · obtain rfl := Option.some.inj hs'
            refine .submitting _ rest halive ?_ hgot rfl fun k e => by cases e
            rw [show s.owner = .idle from hidle, submitting_idle, List.append_nil] at hsub
            show s.submitted ++ [o] ++ rest = os
            rw [List.append_assoc]
            exact hsub
          · cases hs'
  | asking s m hm halive hsub hask =>
      simp only [Script.step] at hs
      split at hs
      · cases hs
      · rename_i a rest hrest
        obtain ⟨s', hs', rfl⟩ := Option.map_eq_some_iff.mp hs
        have hidle := idle_of_call (asks_isCall hrest) hs'
        rcases hask with ⟨-, hgot⟩ | ⟨k, hget, -, -⟩
        · exact .ask halive hsub hm hgot hrest hs'
        · rw [hget] at hidle
          cases hidle
  | destroying s hsub hgot hin => cases hs

/-- A step of a worker is none of `main`. -/
theorem Stage.worker (h : Stage os c) {t : Fin n} {s' : ThreadPool n}
    (hs : c.pool.step (.worker t) = some s') : Stage os ⟨s', c.rest⟩ := by
  have hf := (worker_cases hs).frame
  cases h with
  | submitting s rest halive hsub hgot hin hget =>
      refine .submitting s' rest (hf.alive.trans halive) ?_ (hf.got.trans hgot) ?_ fun k => ?_
      · rw [hf.submitted, hf.owner]
        exact hsub
      · rw [hf.owner]
        exact hin
      · rw [hf.owner]
        exact hget k
  | asking s m hm halive hsub hask =>
      refine .asking s' m hm (hf.alive.trans halive) (hf.submitted.trans hsub) ?_
      rw [hf.owner, hf.got]
      exact hask
  | destroying s hsub hgot hin =>
      refine .destroying s' (hf.submitted.trans hsub) (hf.got.trans hgot) ?_
      rw [hf.owner, hf.alive]
      exact hin

/-- The owner goes on inside a call. A future that is asked while the pool is there has the outcome
    of its task. -/
theorem Stage.owner (h : Stage os c) (hI : PoolInv c.pool) {s' : ThreadPool n}
    (hs : c.pool.step .owner = some s') : Stage os ⟨s', c.rest⟩ := by
  cases h with
  | submitting s rest halive hsub hgot hin hget =>
      simp only [ThreadPool.step] at hs
      cases hpc : s.owner with
      | emplaceBack o =>
          rw [hpc] at hs hsub
          obtain rfl := Option.some.inj hs
          exact .submitting _ rest halive hsub hgot rfl fun k e => by cases e
      | emplacing o =>
          rw [hpc] at hs hsub
          obtain rfl := Option.some.inj hs
          refine .submitting _ rest halive ?_ hgot rfl fun k e => by cases e
          show s.submitted ++ [o] ++ [] ++ rest = os
          rw [List.append_nil]
          exact hsub
      | idle => rw [hpc] at hs; cases hs
      | get k => exact absurd hpc (hget k)
      | destroy rest | join i rest => rw [hpc] at hin; cases hin
  | asking s m hm halive hsub hask =>
      simp only [ThreadPool.step] at hs
      rcases hask with ⟨hidle, -⟩ | ⟨k, hget, rfl, hgot⟩
      · rw [hidle] at hs
        cases hs
      · simp only [hget, ThreadPool.ownerStep] at hs
        split at hs
        · cases hs
        · rename_i hready
          obtain rfl := Option.some.inj hs
          refine .asking _ (k + 1) hm halive hsub (.inl ⟨rfl, ?_⟩)
          show s.got ++ [(k, s.shared k)] = answers os (k + 1)
          cases hsh : s.shared k with
          | notReady => exact absurd hsh hready
          | ready o =>
              have hout := ((hI.ready k o).mp hsh).2
              rw [show s.submitted = os from hsub] at hout
              rw [answers_succ hout, hgot]
          | broken =>
              have hdead := ((hI.broken k).mp hsh).1
              rw [show s.alive = true from halive] at hdead
              cases hdead
  | destroying s hsub hgot hin =>
      simp only [ThreadPool.step] at hs
      cases hpc : s.owner with
      | idle => rw [hpc] at hs; cases hs
      | destroy rest =>
          cases rest with
          | nil =>
              rw [hpc] at hs
              obtain rfl := Option.some.inj hs
              exact .destroying _ hsub hgot (.inr ⟨rfl, rfl⟩)
          | cons i rest =>
              rw [hpc] at hs
              obtain rfl := Option.some.inj hs
              exact .destroying _ hsub hgot (.inl rfl)
      | join i rest =>
          simp only [hpc, ThreadPool.ownerStep] at hs
          split at hs
          · obtain rfl := Option.some.inj hs
            exact .destroying _ hsub hgot (.inl rfl)
          · cases hs
      | emplaceBack o | emplacing o | get k =>
          rw [hpc] at hin
          rcases hin with hin | hin
          · cases hin
          · cases hin.1

theorem Stage.step (h : Stage os c) (hcalm : c.pool.raced = false) (hI : PoolInv c.pool)
    {a : ScriptAction n} (hs : c.step a = some c') : Stage os c' := by
  cases a with
  | call => exact h.call hs
  | inside a =>
      simp only [Script.step] at hs
      split at hs
      · cases hs
      · obtain ⟨s', hs', rfl⟩ := Option.map_eq_some_iff.mp hs
        cases a with
        | owner => exact h.owner hI hs'
        | worker t => exact h.worker hs'
        | corrupt tasks => simp [ThreadPool.step, hcalm] at hs'
        | submit o | get k | destroy => rename_i hin; exact absurd rfl hin

/-- A step of `main` is one of the pool. -/
theorem script_pool {a : ScriptAction n} (hs : c.step a = some c') :
    ∃ b, c.pool.step b = some c'.pool := by
  cases a with
  | call =>
      simp only [Script.step] at hs
      split at hs
      · cases hs
      · obtain ⟨s', hs', rfl⟩ := Option.map_eq_some_iff.mp hs
        exact ⟨_, hs'⟩
  | inside a =>
      simp only [Script.step] at hs
      split at hs
      · cases hs
      · obtain ⟨s', hs', rfl⟩ := Option.map_eq_some_iff.mp hs
        exact ⟨a, hs'⟩

theorem stage_start (n : ℕ) (os : List Outcome) : Stage os (submitAllGetAll n os) :=
  .submitting _ os rfl rfl rfl rfl fun k e => by cases e

end Scripts

/-- **Submit everything, then ask for everything.** Whatever the tasks and the number of workers, in
    every interleaving in which no `Submit` overlaps with a worker's access to the list: when `main`
    is through, each `get` has given how its own task ended, in the order asked, and every task was
    executed exactly once. -/
theorem submit_all_get_all (os : List Outcome) {c : Script n}
    (h : Reach Script.step (submitAllGetAll n os) c) (hcalm : c.pool.raced = false)
    (hrest : c.rest = []) (hidle : c.pool.owner = .idle) :
    c.pool.got = answers os os.length ∧ c.pool.executed.Perm (List.range os.length) := by
  obtain ⟨hI, hstage⟩ : PoolInv c.pool ∧ Stage os c :=
    h.invariant (I := fun c => c.pool.raced = false → PoolInv c.pool ∧ Stage os c)
      (fun _ => ⟨poolInv_start n, stage_start n os⟩)
      (fun _ _ _ hI _ hs hcalm => by
        obtain ⟨b, hb⟩ := script_pool hs
        have hbefore := was_calm hb hcalm
        obtain ⟨hpool, hstage⟩ := hI hbefore
        exact ⟨hpool.step hbefore hb, hstage.step hbefore hpool hs⟩) hcalm
  cases hstage with
  | submitting | asking =>
      exact absurd hrest (List.append_ne_nil_of_right_ne_nil _ (List.cons_ne_nil _ _))
  | destroying s hsub hgot hin =>
      refine ⟨hgot, ?_⟩
      have hlen : ∀ k, k < os.length → k ∈ s.executed := fun k hk => by
        have hmem : (k, Shared.ready os[k]) ∈ s.got := by
          rw [hgot, answers, List.take_length]
          exact List.mem_iff_getElem?.mpr ⟨k, by simp [hk]⟩
        have hsh := (hI.got k _ hmem).1
        exact completed_executed hI.ended ((hI.ready k _).mp hsh.symm).1
      refine (List.perm_ext_iff_of_nodup hI.executed_nodup List.nodup_range).mpr fun k => ?_
      rw [List.mem_range]
      refine ⟨fun hk => ?_, hlen k⟩
      have := hI.executed_lt hk
      have hle : s.taken ≤ s.submitted.length := hI.taken_le
      rw [show s.submitted = os from hsub] at hle
      exact Nat.lt_of_lt_of_le this hle

/-- The tasks of `main`. -/
def mainTasks : List Outcome := [.returns, .returns, .throws "Exception in task!", .returns]

/-- Three workers. The second task is submitted while the first worker, with `m_mtx`, has found the
    first one; this worker takes the second one as well, the other two take one each. -/
def mainRun (t u v : Fin n) : List (ScriptAction n) :=
  [ScriptAction.call, .inside .owner, .inside .owner] ++
    List.replicate 4 (ScriptAction.inside (.worker t)) ++
    [ScriptAction.call, .inside .owner, .inside .owner] ++
    List.replicate 5 (ScriptAction.inside (.worker t)) ++
    (List.replicate 2 [ScriptAction.call, .inside .owner, .inside .owner]).flatten ++
    ([t, u, v].map fun w => List.replicate 9 (ScriptAction.inside (.worker w))).flatten ++
    (List.replicate 4 [ScriptAction.call, .inside .owner]).flatten ++ [ScriptAction.call] ++
    ([t, u, v].map fun w =>
      [ScriptAction.inside .owner, .inside (.worker w), .inside .owner]).flatten ++
    [ScriptAction.inside .owner]

theorem submit_all_get_all_main :
    ∃ c, Reach Script.step (submitAllGetAll 3 mainTasks) c ∧ c.pool.raced = false ∧
      c.pool.alive = false ∧
      c.pool.got = [(0, .ready .returns), (1, .ready .returns),
        (2, .ready (.throws "Exception in task!")), (3, .ready .returns)] ∧
      c.pool.executed.Perm [0, 1, 2, 3] := by
  obtain ⟨c, hc, hp⟩ := reach_of_run Script.step (fun _ _ => true) (submitAllGetAll 3 mainTasks)
    (mainRun 0 1 2) (fun c => c.rest.isEmpty && decide (c.pool.owner = .idle ∧
      c.pool.raced = false ∧ c.pool.alive = false)) (by decide +kernel)
  obtain ⟨hrest, hend⟩ := Bool.and_eq_true_iff.mp hp
  obtain ⟨hidle, hcalm, hdead⟩ := of_decide_eq_true hend
  obtain ⟨hgot, hperm⟩ := submit_all_get_all mainTasks hc.reach hcalm (List.isEmpty_iff.mp hrest)
    hidle
  exact ⟨c, hc.reach, hcalm, hdead, hgot, hperm⟩

end HseMultithreading.Structured
