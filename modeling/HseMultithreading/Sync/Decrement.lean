/-
  File:      HseMultithreading/Sync/Decrement.lean
  Subject:   Threads that take 100 from an atomic as long as it is positive:
             `atomics/race_condition.cpp`, which tests and then subtracts, and `atomics/cas.cpp`,
             which exchanges a value it has tested.

  Each access is atomic in both programs, and still the first one is wrong: between the test and the
  subtraction other threads may have passed the same test.

  * `Decrementing` -- the atomic and `n` threads; `raceStep`, `casStep` -- the two programs.
  * **`race_condition_exact`** -- the first one, from 100, can end with any of
    `0, -100, …, 100 - 100 * n`, and with nothing else. On the way `x` stays between the last of
    these and 100: the atomic `int` wraps around for more than 21 million threads only.
  * **`cas_settles`** -- the second one never goes to -100 or below, from any positive value: once a
    thread has returned, `x` is the first value not above 0. After a successful exchange `expected`
    still has the old value, so every thread leaves its loop by an exchange that fails. The number
    of steps is bounded up to the spurious failures.
-/
import Mathlib.Data.Fintype.BigOperators
import Mathlib.Data.List.FinRange
import HseMultithreading.Lib.Amortized

namespace HseMultithreading.Sync

open StepSystem

/-! ## 1. The programs -/

/-- What a thread does NEXT: `subtract` is the `x -= 100` of the first program, `loop expected` the
    head of the loop of the second. -/
inductive DecPc where
  | begin
  | subtract
  | loop (expected : ℤ)
  | returned
  deriving DecidableEq

/-- The atomic and the threads. -/
structure Decrementing (n : ℕ) where
  x : ℤ
  threads : Fin n → DecPc

section Programs

variable {n : ℕ}

def Decrementing.start (n : ℕ) (x : ℤ) : Decrementing n := ⟨x, fun _ => .begin⟩

def Decrementing.goto (s : Decrementing n) (t : Fin n) (pc : DecPc) : Decrementing n :=
  { s with threads := Function.update s.threads t pc }

def Decrementing.Finished (s : Decrementing n) : Prop := ∀ t, s.threads t = .returned

/-- A step of thread `t` of `race_condition.cpp`. -/
def Decrementing.raceStep (s : Decrementing n) (t : Fin n) : Option (Decrementing n) :=
  match s.threads t with
  | .begin => some (s.goto t (if 0 < s.x then .subtract else .returned))
  | .subtract => some ({ s with x := s.x - 100 }.goto t .returned)
  | .loop _ | .returned => none

/-- `spurious t` is a `compare_exchange_weak` that fails on the value it expects. -/
inductive CasAction (n : ℕ) where
  | advance (t : Fin n)
  | spurious (t : Fin n)

def CasAction.isSpurious : CasAction n → Bool
  | .advance _ => false
  | .spurious _ => true

/-- A step of thread `t` of `cas.cpp`: an exchange that fails stores the value it has found in
    `expected`, one that succeeds leaves `expected` as it is. -/
def Decrementing.casAdvance (s : Decrementing n) (t : Fin n) : DecPc → Option (Decrementing n)
  | .begin => some (s.goto t (.loop s.x))
  | .loop expected =>
    if 0 < expected then
      if s.x = expected then some { s with x := expected - 100 }
      else some (s.goto t (.loop s.x))
    else some (s.goto t .returned)
  | .subtract | .returned => none

def Decrementing.casStep (s : Decrementing n) : CasAction n → Option (Decrementing n)
  | .advance t => s.casAdvance t (s.threads t)
  | .spurious t =>
    match s.threads t with
    | .loop expected => if 0 < expected then some (s.goto t (.loop s.x)) else none
    | _ => none

end Programs

/-! ## 2. Test, then subtract -/

/-- The threads that may still subtract. -/
def DecPc.pending : DecPc → ℕ
  | .returned => 0
  | _ => 1

/-- **The invariant**: `m` threads have subtracted, and nobody has returned from a positive `x`. -/
structure SubInv {n : ℕ} (s : Decrementing n) (m : ℕ) : Prop where
  value : s.x = 100 - 100 * m
  room : m + ∑ t, (s.threads t).pending ≤ n
  below : 0 < s.x → ∀ t, s.threads t ≠ .returned

section Race

variable {n m : ℕ} {s s' : Decrementing n} {t : Fin n}

theorem subInv_start (n : ℕ) : SubInv (.start n 100) 0 where
  value := rfl
  room := by simp [Decrementing.start, DecPc.pending]
  below _ _ h := by cases h

/-- A thread moves on, and is not pending any more if it pays for `d`. -/
theorem SubInv.room_update (h : SubInv s m) {new : DecPc} {d : ℕ}
    (hnew : new.pending + d ≤ (s.threads t).pending) :
    m + d + ∑ u, (Function.update s.threads t new u).pending ≤ n := by
  have hmove := Amortized.sum_move (d := 0) (f := fun u => (s.threads u).pending)
    (g := fun u => (Function.update s.threads t new u).pending) (Finset.mem_univ t)
    fun u _ e => by rw [Function.update_of_ne e]; exact Nat.le_refl _
  have hroom := h.room
  rw [Function.update_self] at hmove
  omega

theorem SubInv.step (h : SubInv s m) (hs : s.raceStep t = some s') : ∃ m', SubInv s' m' := by
  unfold Decrementing.raceStep at hs
  cases hpc : s.threads t with
  | loop e => rw [hpc] at hs; cases hs
  | returned => rw [hpc] at hs; cases hs
  | begin =>
      rw [hpc] at hs
      obtain rfl := Option.some.inj hs
      refine ⟨m, h.value, h.room_update (d := 0) (by rw [hpc]; split <;> simp [DecPc.pending]),
        fun hpos => ?_⟩
      have hpos' : 0 < s.x := hpos
      refine (Function.forall_update_iff s.threads fun _ pc => pc ≠ .returned).mpr
        ⟨?_, fun u _ => h.below hpos' u⟩
      rw [if_pos hpos']
      simp
  | subtract =>
      rw [hpc] at hs
      obtain rfl := Option.some.inj hs
      have hvalue := h.value
      refine ⟨m + 1, ?_, h.room_update (d := 1) (by rw [hpc]; simp [DecPc.pending]), fun hpos => ?_⟩
      · show s.x - 100 = 100 - 100 * ((m + 1 : ℕ) : ℤ)
        push_cast
        omega
      · have : 0 < s.x - 100 := hpos
        omega

theorem subInv_reach (h : Reach Decrementing.raceStep (.start n 100) s) : ∃ m, SubInv s m :=
  h.invariant (I := fun s => ∃ m, SubInv s m) ⟨0, subInv_start n⟩
    fun _ _ _ ⟨_, hI⟩ _ hstep => hI.step hstep

theorem SubInv.le (h : SubInv s m) : m ≤ n := Nat.le_trans (Nat.le_add_right _ _) h.room

/-- A thread goes where those of `l` go. -/
theorem ite_mem_update {l : List (Fin n)} {a : Fin n} (hnot : a ∉ l) (threads : Fin n → DecPc)
    (new : DecPc) (t : Fin n) :
    (if t ∈ l then new else Function.update threads a new t) =
      if t ∈ a :: l then new else threads t := by
  by_cases e : t = a
  · rw [e, if_neg hnot, Function.update_self, if_pos List.mem_cons_self]
  · rw [Function.update_of_ne e]
    exact if_congr (by rw [List.mem_cons, or_iff_right e]) rfl rfl

/-- The threads of `l` make their tests. -/
theorem run_tests (l : List (Fin n)) : ∀ {s : Decrementing n}, l.Nodup →
    (∀ t ∈ l, s.threads t = .begin) →
    ∃ s', run Decrementing.raceStep s l = some s' ∧ s'.x = s.x ∧ ∀ t, s'.threads t =
      if t ∈ l then (if 0 < s.x then .subtract else .returned) else s.threads t := by
  induction l with
  | nil => exact fun _ _ => ⟨_, rfl, rfl, fun t => by rw [if_neg List.not_mem_nil]⟩
  | cons a l ih =>
      intro s hnd hbegin
      obtain ⟨hnot, hnd'⟩ := List.nodup_cons.mp hnd
      have hstep : s.raceStep a = some (s.goto a (if 0 < s.x then .subtract else .returned)) := by
        simp only [Decrementing.raceStep, hbegin a List.mem_cons_self]
      have hne : ∀ t ∈ l, t ≠ a := fun t ht e => hnot (e ▸ ht)
      obtain ⟨s', hrun, hx, hthr⟩ := ih (s := s.goto a (if 0 < s.x then .subtract else .returned))
        hnd' fun t ht => by
          simp only [Decrementing.goto, Function.update_of_ne (hne t ht)]
          exact hbegin t (List.mem_cons_of_mem a ht)
      exact ⟨s', by rw [run, hstep]; exact hrun, hx, fun t =>
        (hthr t).trans (ite_mem_update hnot s.threads _ t)⟩

/-- The threads of `l` subtract. -/
theorem run_subtracts (l : List (Fin n)) : ∀ {s : Decrementing n}, l.Nodup →
    (∀ t ∈ l, s.threads t = .subtract) →
    ∃ s', run Decrementing.raceStep s l = some s' ∧ s'.x = s.x - 100 * l.length ∧
      ∀ t, s'.threads t = if t ∈ l then .returned else s.threads t := by
  induction l with
  | nil => exact fun _ _ => ⟨_, rfl, by simp, fun t => by rw [if_neg List.not_mem_nil]⟩
  | cons a l ih =>
      intro s hnd hsub
      obtain ⟨hnot, hnd'⟩ := List.nodup_cons.mp hnd
      have hstep : s.raceStep a = some ({ s with x := s.x - 100 }.goto a .returned) := by
        simp only [Decrementing.raceStep, hsub a List.mem_cons_self]
      have hne : ∀ t ∈ l, t ≠ a := fun t ht e => hnot (e ▸ ht)
      obtain ⟨s', hrun, hx, hthr⟩ := ih (s := { s with x := s.x - 100 }.goto a .returned) hnd'
        fun t ht => by
          simp only [Decrementing.goto, Function.update_of_ne (hne t ht)]
          exact hsub t (List.mem_cons_of_mem a ht)
      refine ⟨s', by rw [run, hstep]; exact hrun, hx.trans ?_, fun t =>
        (hthr t).trans (ite_mem_update hnot s.threads _ t)⟩
      simp only [Decrementing.goto, List.length_cons]
      push_cast
      omega

end Race

/-- **Of `n` threads that test and then subtract, any number from one to all may subtract.** On the
    way `x` takes no other values than these and 100. -/
theorem race_condition_exact {n : ℕ} (hn : 0 < n) (y : ℤ) :
    ((∃ s : Decrementing n, Reach Decrementing.raceStep (.start n 100) s ∧ s.Finished ∧ s.x = y) ↔
      ∃ m : ℕ, 1 ≤ m ∧ m ≤ n ∧ y = 100 - 100 * m) ∧
    ∀ s : Decrementing n, Reach Decrementing.raceStep (.start n 100) s →
      ∃ m : ℕ, m ≤ n ∧ s.x = 100 - 100 * m := by
  refine ⟨⟨?_, ?_⟩, fun s hs => ?_⟩
  · rintro ⟨s, hs, hfin, rfl⟩
    obtain ⟨m, hm⟩ := subInv_reach hs
    refine ⟨m, ?_, hm.le, hm.value⟩
    by_contra h0
    obtain rfl : m = 0 := by omega
    have hpos : 0 < s.x := by rw [hm.value]; decide
    exact hm.below hpos ⟨0, hn⟩ (hfin _)
  · rintro ⟨m, h1, hm, rfl⟩
    -- The first `m` threads test while `x` is 100, subtract, and the others come too late.
    have hnd := List.nodup_finRange n
    rw [← List.take_append_drop m (List.finRange n)] at hnd
    obtain ⟨hnd₁, hnd₂, hdisj⟩ := List.nodup_append.mp hnd
    obtain ⟨s₁, r₁, hx₁, ht₁⟩ := run_tests (s := .start n 100) _ hnd₁ fun _ _ => rfl
    obtain ⟨s₂, r₂, hx₂, ht₂⟩ := run_subtracts (s := s₁) _ hnd₁ fun t ht => by
      rw [ht₁, if_pos ht]
      rfl
    obtain ⟨s₃, r₃, hx₃, ht₃⟩ := run_tests (s := s₂) _ hnd₂ fun t ht => by
      have hout : t ∉ (List.finRange n).take m := fun h => hdisj t h t ht rfl
      rw [ht₂, if_neg hout, ht₁, if_neg hout]
      rfl
    have hlen : ((List.finRange n).take m).length = m := by
      rw [List.length_take, List.length_finRange, Nat.min_eq_left hm]
    have hx : s₂.x = 100 - 100 * m := by
      rw [hx₂, hx₁, hlen]
      rfl
    have hneg : ¬ 0 < s₂.x := by
      rw [hx]
      omega
    refine ⟨s₃, (reach_run r₁).trans ((reach_run r₂).trans (reach_run r₃)), fun t => ?_,
      hx₃.trans hx⟩
    rw [ht₃, if_neg hneg]
    split
    · rfl
    next hdrop =>
      have hmem : t ∈ (List.finRange n).take m ++ (List.finRange n).drop m := by
        rw [List.take_append_drop]
        exact List.mem_finRange t
      rw [ht₂, if_pos ((List.mem_append.mp hmem).resolve_right hdrop)]
  · obtain ⟨m, hm⟩ := subInv_reach hs
    exact ⟨m, hm.le, hm.value⟩

/-- The two threads of the source both subtract. -/
theorem race_condition_exact_both :
    ∃ s : Decrementing 2, Reach Decrementing.raceStep (.start 2 100) s ∧ s.Finished ∧ s.x = -100 :=
  (race_condition_exact (by decide) (-100)).1.mpr ⟨2, by decide, by decide, by decide⟩

/-! ## 3. Exchange what was tested -/

/-- **The kinds of steps.** -/
inductive CasMoved {n : ℕ} (s : Decrementing n) : CasAction n → Decrementing n → Prop where
  | load (t : Fin n) (hpc : s.threads t = .begin) : CasMoved s (.advance t) (s.goto t (.loop s.x))
  | exchange (t : Fin n) (hpc : s.threads t = .loop s.x) (hpos : 0 < s.x) :
      CasMoved s (.advance t) { s with x := s.x - 100 }
  | fail (t : Fin n) (e : ℤ) (hpc : s.threads t = .loop e) (hne : s.x ≠ e) :
      CasMoved s (.advance t) (s.goto t (.loop s.x))
  | leave (t : Fin n) (e : ℤ) (hpc : s.threads t = .loop e) (hneg : e ≤ 0) :
      CasMoved s (.advance t) (s.goto t .returned)
  | spurious (t : Fin n) (e : ℤ) (hpc : s.threads t = .loop e) :
      CasMoved s (.spurious t) (s.goto t (.loop s.x))

theorem casStep_moved {n : ℕ} {s s' : Decrementing n} {a : CasAction n}
    (hs : s.casStep a = some s') : CasMoved s a s' := by
  cases a with
  | advance t =>
      change s.casAdvance t (s.threads t) = some s' at hs
      cases hpc : s.threads t with
      | begin =>
          rw [hpc] at hs
          obtain rfl := Option.some.inj hs
          exact .load t hpc
      | subtract => rw [hpc] at hs; cases hs
      | returned => rw [hpc] at hs; cases hs
      | loop e =>
          simp only [hpc, Decrementing.casAdvance] at hs
          split at hs
          next hpos =>
            split at hs
            next hx =>
              obtain rfl := Option.some.inj hs
              subst hx
              exact .exchange t hpc hpos
            next hx =>
              obtain rfl := Option.some.inj hs
              exact .fail t e hpc hx
          next hneg =>
            obtain rfl := Option.some.inj hs
            exact .leave t e hpc (Int.not_lt.mp hneg)
  | spurious t =>
      simp only [Decrementing.casStep] at hs
      split at hs
      next e hpc =>
        split at hs
        · obtain rfl := Option.some.inj hs
          exact .spurious t e hpc
        · cases hs
      next => cases hs

/-- **The invariant of the exchanges**: `x` goes down in steps of 100 from positive values only, so
    what a thread expects is not below it. -/
structure CasInv {n : ℕ} (v : ℤ) (s : Decrementing n) : Prop where
  above : -100 < s.x
  steps : 100 ∣ v - s.x
  expected : ∀ t e, s.threads t = .loop e → s.x ≤ e
  returned : ∀ t, s.threads t = .returned → s.x ≤ 0
  place : ∀ t, s.threads t ≠ .subtract

section Cas

variable {n : ℕ} {v : ℤ} {s s' : Decrementing n} {t : Fin n}

theorem casInv_start (hv : 0 < v) : CasInv v (.start n v) where
  above := by
    show -100 < v
    omega
  steps := by
    show 100 ∣ v - v
    omega
  expected _ _ h := by cases h
  returned _ h := by cases h
  place _ h := by cases h

/-- A thread moves and `x` stays. -/
theorem CasInv.goto (h : CasInv v s) {new : DecPc} (hloop : ∀ e, new = .loop e → s.x ≤ e)
    (hret : new = .returned → s.x ≤ 0) (hplace : new ≠ .subtract) : CasInv v (s.goto t new) where
  above := h.above
  steps := h.steps
  expected := (Function.forall_update_iff s.threads fun _ pc => ∀ e, pc = .loop e → s.x ≤ e).mpr
    ⟨hloop, fun u _ => h.expected u⟩
  returned := (Function.forall_update_iff s.threads fun _ pc => pc = .returned → s.x ≤ 0).mpr
    ⟨hret, fun u _ => h.returned u⟩
  place := (Function.forall_update_iff s.threads fun _ pc => pc ≠ .subtract).mpr
    ⟨hplace, fun u _ => h.place u⟩

/-- A thread looks at `x`. -/
theorem CasInv.look (h : CasInv v s) : CasInv v (s.goto t (.loop s.x)) :=
  h.goto (fun e he => by rw [DecPc.loop.inj he]) (fun he => by cases he) (fun he => by cases he)

/-- An exchange succeeds. -/
theorem CasInv.exchange (h : CasInv v s) (hpos : 0 < s.x) : CasInv v { s with x := s.x - 100 } where
  above := by
    show -100 < s.x - 100
    omega
  steps := by
    show 100 ∣ v - (s.x - 100)
    have := h.steps
    omega
  expected u e he := by
    have := h.expected u e he
    show s.x - 100 ≤ e
    omega
  returned u hu := by
    have := h.returned u hu
    omega
  place := h.place

theorem CasInv.step (h : CasInv v s) {a : CasAction n} (hs : s.casStep a = some s') :
    CasInv v s' := by
  cases casStep_moved hs with
  | load | fail | spurious => exact h.look
  | exchange t hpc hpos => exact h.exchange hpos
  | leave t e hpc hneg =>
      exact h.goto (fun e he => by cases he) (fun _ => (h.expected t e hpc).trans hneg)
        (fun he => by cases he)

/-- A thread that has not returned can always move. -/
theorem CasInv.finished (h : CasInv v s) (hstuck : Stuck Decrementing.casStep s) : s.Finished := by
  intro t
  have ht : s.casAdvance t (s.threads t) = none := hstuck (.advance t)
  cases hpc : s.threads t with
  | returned => rfl
  | subtract => exact absurd hpc (h.place t)
  | begin => rw [hpc] at ht; cases ht
  | loop e =>
      simp only [hpc, Decrementing.casAdvance] at ht
      split at ht
      · split at ht <;> cases ht
      · cases ht

/-- The exchanges that can still succeed. -/
def chances (x : ℤ) : ℕ := ((x + 99) / 100).toNat

/-- What a thread may still have to do without a success: one step to leave, and one to find out
    that `x` is another. -/
def DecPc.work (x : ℤ) : DecPc → ℕ
  | .begin => 2
  | .loop expected => if expected = x then 1 else 2
  | .subtract | .returned => 0

/-- The steps to come, but for spurious failures. -/
def Decrementing.potential (s : Decrementing n) : ℕ :=
  (n + 1) * chances s.x + ∑ t, (s.threads t).work s.x

/-- A thread moves, `x` stays, and what the thread has to do gets less up to a credit. -/
theorem potential_goto {new : DecPc} {c : ℕ}
    (h : new.work s.x + 1 ≤ (s.threads t).work s.x + c) :
    (s.goto t new).potential + 1 ≤ s.potential + c := by
  have hpay := Amortized.sum_pay (d := 0) (c := c) (f := fun u => (s.threads u).work s.x)
    (g := fun u => (Function.update s.threads t new u).work s.x) (Finset.mem_univ t)
    (fun u _ e => by rw [Function.update_of_ne e]; exact Nat.le_refl _)
    (by rw [Function.update_self]; omega)
  show (n + 1) * chances s.x + ∑ u, (Function.update s.threads t new u).work s.x + 1 ≤
    (n + 1) * chances s.x + ∑ u, (s.threads u).work s.x + c
  omega

/-- An exchange that succeeds uses up a chance, which pays for all threads that have to look
    again. -/
theorem potential_exchange (hpos : 0 < s.x) :
    ({ s with x := s.x - 100 } : Decrementing n).potential + 1 ≤ s.potential := by
  have hchances : chances s.x = chances (s.x - 100) + 1 := by
    unfold chances
    omega
  have hwork : ∀ u ∈ Finset.univ, (s.threads u).work (s.x - 100) ≤ (s.threads u).work s.x + 1 := by
    intro u _
    cases s.threads u with
    | begin | subtract | returned => exact Nat.le_succ _
    | loop e =>
        simp only [DecPc.work]
        split_ifs <;> omega
  have hsum := Finset.sum_le_sum hwork
  rw [Finset.sum_add_distrib, Finset.sum_const_nat fun _ _ => rfl, Finset.card_univ,
    Fintype.card_fin, Nat.mul_one] at hsum
  show (n + 1) * chances (s.x - 100) + ∑ u, (s.threads u).work (s.x - 100) + 1 ≤
    (n + 1) * chances s.x + ∑ u, (s.threads u).work s.x
  rw [hchances, Nat.mul_succ]
  omega

theorem potential_step {a : CasAction n} (hs : s.casStep a = some s') :
    s'.potential + 1 ≤ s.potential + if a.isSpurious then 1 else 0 := by
  have hfresh : (DecPc.loop s.x).work s.x = 1 := if_pos rfl
  have hloop : ∀ e, 1 ≤ (DecPc.loop e).work s.x := fun e => by
    simp only [DecPc.work]
    split <;> omega
  cases casStep_moved hs with
  | load t hpc => exact potential_goto (c := 0) (by rw [hpc, hfresh]; rfl)
  | exchange t hpc hpos => exact potential_exchange hpos
  | fail t e hpc hne =>
      refine potential_goto (c := 0) ?_
      rw [hpc, hfresh]
      simp only [DecPc.work, if_neg (Ne.symm hne)]
      exact Nat.le_refl _
  | leave t e hpc hneg => exact potential_goto (c := 0) (by rw [hpc]; exact hloop e)
  | spurious t e hpc =>
      exact potential_goto (c := 1) (by rw [hpc, hfresh]; exact Nat.succ_le_succ (hloop e))

end Cas

/-- **Threads that exchange what they have tested take 100 from positive values only**: from `v > 0`
    and with any number of threads, `x` ends as the first of `v, v - 100, …` that is not above 0; a
    run has at most `n + 1` steps for each exchange, two for each thread and one for each spurious
    failure. -/
theorem cas_settles (n : ℕ) {v : ℤ} (hv : 0 < v) :
    (∀ as s, run Decrementing.casStep (.start n v) as = some s →
      as.length ≤ (n + 1) * chances v + 2 * n + as.countP CasAction.isSpurious) ∧
    ∀ s : Decrementing n, Reach Decrementing.casStep (.start n v) s →
      -100 < s.x ∧ 100 ∣ v - s.x ∧ ((∃ t, s.threads t = .returned) → s.x ≤ 0) ∧
        (Stuck Decrementing.casStep s → s.Finished) := by
  refine ⟨fun as s hrun => ?_, fun s hs => ?_⟩
  · have hlen := Amortized.length_le_of_credit (C := fun _ => True) Decrementing.potential
      (fun a => if a.isSpurious then 1 else 0) (fun _ _ _ _ hs => potential_step hs) hrun
      fun _ _ => trivial
    have hstart : (Decrementing.start n v).potential = (n + 1) * chances v + 2 * n := by
      simp [Decrementing.potential, Decrementing.start, DecPc.work, Nat.mul_comm]
    have hcount : (as.map fun a => if a.isSpurious then 1 else 0).sum =
        as.countP CasAction.isSpurious := by
      clear hrun hlen
      induction as with
      | nil => rfl
      | cons a as ih => rw [List.map_cons, List.sum_cons, List.countP_cons, ih, Nat.add_comm]
    rw [hstart, hcount] at hlen
    omega
  · have h := hs.invariant (I := CasInv v) (casInv_start hv) fun _ _ _ hI _ hstep => hI.step hstep
    exact ⟨h.above, h.steps, fun ⟨t, ht⟩ => h.returned t ht, h.finished⟩

/-- The two threads of the source: both load 100, one exchange succeeds, the other ones fail. -/
theorem cas_settles_bothLoad :
    ∃ s : Decrementing 2, Reach Decrementing.casStep (.start 2 100) s ∧ s.Finished ∧ s.x = 0 := by
  obtain ⟨s, hs, hp⟩ := reach_of_run Decrementing.casStep (fun _ _ => true)
    (Decrementing.start 2 100)
    [.advance 0, .advance 1, .spurious 0, .advance 0, .advance 1, .advance 1, .advance 0,
      .advance 0]
    (fun s => decide (s.threads 0 = .returned ∧ s.threads 1 = .returned)) (by decide +kernel)
  obtain ⟨h0, h1⟩ := of_decide_eq_true hp
  obtain ⟨habove, hsteps, hret, -⟩ := (cas_settles 2 (v := 100) (by decide)).2 s hs.reach
  have hle := hret ⟨0, h0⟩
  exact ⟨s, hs.reach, Fin.forall_fin_two.mpr ⟨h0, h1⟩, by omega⟩

end HseMultithreading.Sync
