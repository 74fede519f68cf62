/-
  File:      HseMultithreading/Futex/Latch.lean
  Subject:   `Latch` (`futex/latch.cpp`): a counter that threads count down, and threads that sleep
             in the kernel until it is zero.

  Only the `CountDown` that takes the counter from 1 to 0 wakes anybody. A sleeper may sleep on any
  earlier value, and a thread may stand between its load and its `FutexWait` when the counter
  becomes zero: then the kernel finds another word than the one the thread expects, and the thread
  does not sleep.

  * `Latch`, `Latch.step` -- any number of threads inside `CountDown`, `Wait` and `ArriveAndWait`:
    the `fetch_sub`, the load, `FutexWait` (which compares and falls asleep in one step and may
    return with nobody having woken it) and `FutexWake` are steps.
  * `latch_count_range` -- with at most `c` calls of `CountDown` the counter stays in `0 .. c`.
  * **`latch_correct`** -- no `Wait` returns before the `c`-th `fetch_sub`, and nobody is left
    asleep on a counter that is zero.
-/
import HseMultithreading.Lib.Run
import HseMultithreading.Lib.Token

namespace HseMultithreading.Futex

open StepSystem TokenRule

/-! ## 1. The machine -/

/-- What a thread does NEXT; `thenWait` marks the `CountDown` of an `ArriveAndWait`. -/
inductive LatchPc where
  | idle
  | fetchSub (thenWait : Bool)
  | futexWake (thenWait : Bool)
  | load
  | futexWait (current : ℤ)
  | asleep
  deriving DecidableEq

/-- `m_count` and where each thread stands. Beside them an observer counts the calls of `CountDown`
    and the `fetch_sub`s, and notes for every `Wait` that has returned how many `fetch_sub`s had
    happened by then. -/
structure Latch where
  count : ℤ
  threads : ℕ → LatchPc
  calls : ℕ
  subs : ℕ
  returns : List ℕ

def Latch.start (c : ℕ) : Latch := ⟨c, fun _ => .idle, 0, 0, []⟩

def Latch.goto (s : Latch) (t : ℕ) (pc : LatchPc) : Latch :=
  { s with threads := Function.update s.threads t pc }

/-- `FutexWake(&m_count, INT_MAX)`: every sleeper goes back to its load. -/
def Latch.wakeAll (s : Latch) : Latch :=
  { s with threads := fun t => if s.threads t = .asleep then .load else s.threads t }

/-- Where a `CountDown` leads: to the caller, or on to the `Wait` of `ArriveAndWait`. -/
def LatchPc.afterCountDown (thenWait : Bool) : LatchPc := if thenWait then .load else .idle

/-- The next step of thread `t`. -/
def Latch.advance (s : Latch) (t : ℕ) : LatchPc → Option Latch
  | .idle => none
  | .fetchSub thenWait =>
    some ({ s with count := s.count - 1, subs := s.subs + 1 }.goto t
      (if s.count = 1 then .futexWake thenWait else .afterCountDown thenWait))
  | .futexWake thenWait => some (s.wakeAll.goto t (.afterCountDown thenWait))
  | .load =>
    if s.count = 0 then some ({ s with returns := s.returns ++ [s.subs] }.goto t .idle)
    else some (s.goto t (.futexWait s.count))
  | .futexWait current =>
    if s.count = current then some (s.goto t .asleep) else some (s.goto t .load)
  | .asleep => none

inductive LatchAction where
  | countDown (t : ℕ)
  | wait (t : ℕ)
  | arriveAndWait (t : ℕ)
  | advance (t : ℕ)
  | spurious (t : ℕ)

/-- A thread that is in no call starts one. -/
def Latch.enter (s : Latch) (t : ℕ) (pc : LatchPc) : Option Latch :=
  if s.threads t = .idle then some (s.goto t pc) else none

def Latch.step (s : Latch) : LatchAction → Option Latch
  | .countDown t => { s with calls := s.calls + 1 }.enter t (.fetchSub false)
  | .wait t => s.enter t .load
  | .arriveAndWait t => { s with calls := s.calls + 1 }.enter t (.fetchSub true)
  | .advance t => s.advance t (s.threads t)
  | .spurious t => if s.threads t = .asleep then some (s.goto t .load) else none

/-- **At most `c` calls of `CountDown`**, directly or through `ArriveAndWait`. -/
def Latch.within (c : ℕ) (s : Latch) : LatchAction → Bool
  | .countDown _ | .arriveAndWait _ => decide (s.calls < c)
  | _ => true

/-- The thread is inside a `CountDown`. -/
def LatchPc.counting : LatchPc → Bool
  | .fetchSub _ | .futexWake _ => true
  | _ => false

/-! ## 2. The invariant -/

def LatchPc.waking : LatchPc → Bool
  | .futexWake _ => true
  | _ => false

def LatchPc.subtracting : LatchPc → Bool
  | .fetchSub _ => true
  | _ => false

/-- **What the threads rely on.** `P` are the threads whose `fetch_sub` is still to come. A thread
    sleeps only while the counter is not zero or a `FutexWake` is on its way. -/
structure LatchInv (c : ℕ) (s : Latch) (P : Finset ℕ) : Prop where
  count : s.count = c - s.subs
  pending : ∀ t, t ∈ P ↔ (s.threads t).subtracting = true
  calls : s.subs + P.card = s.calls
  within : s.calls ≤ c
  returned : ∀ k ∈ s.returns, k = c
  expected : ∀ t v, s.threads t = .futexWait v → v ≠ 0
  awaited : ∀ t, s.threads t = .asleep → s.count ≠ 0 ∨ ∃ t', (s.threads t').waking = true

theorem latchInv_start (c : ℕ) : LatchInv c (.start c) ∅ where
  count := (Int.sub_zero _).symm
  pending := Marked.start fun _ => rfl
  calls := rfl
  within := Nat.zero_le c
  returned _ h := absurd h List.not_mem_nil
  expected _ _ h := nomatch h
  awaited _ h := nomatch h

section Steps

variable {c : ℕ} {s s' : Latch} {P : Finset ℕ} {t : ℕ} {new : LatchPc}

theorem LatchInv.marked (h : LatchInv c s P) : Marked LatchPc.subtracting s.threads P := h.pending

theorem LatchInv.expected_update (h : LatchInv c s P) (hnew : ∀ v, new = .futexWait v → v ≠ 0) :
    ∀ t' v, Function.update s.threads t new t' = .futexWait v → v ≠ 0 := by
  rw [Function.forall_update_iff s.threads fun _ pc => ∀ v, pc = .futexWait v → v ≠ 0]
  exact ⟨hnew, fun t' _ => h.expected t'⟩

/-- The sleepers are still awaited when a thread moves that is not the one to wake them. -/
theorem LatchInv.awaited_update (h : LatchInv c s P) (hwake : (s.threads t).waking = false)
    (hnew : new = .asleep → s.count ≠ 0) (t' : ℕ)
    (ht' : Function.update s.threads t new t' = .asleep) :
    s.count ≠ 0 ∨ ∃ w, (Function.update s.threads t new w).waking = true := by
  by_cases e : t' = t
  · rw [e, Function.update_self] at ht'
    exact .inl (hnew ht')
  · rw [Function.update_of_ne e] at ht'
    refine (h.awaited t' ht').imp_right fun ⟨w, hw⟩ => ⟨w, ?_⟩
    rw [Function.update_of_ne fun ew => by rw [ew, hwake] at hw; cases hw]
    exact hw

/-- **Thread `t` moves to place `new` and the counter stays**: what is left to say about `t`. -/
theorem LatchInv.move (h : LatchInv c s P) (new : LatchPc)
    (hthr : s'.threads = Function.update s.threads t new) (hcount : s'.count = s.count)
    (hcalls : s'.calls = s.calls) (hsubs : s'.subs = s.subs)
    (hret : ∀ k ∈ s'.returns, k = c) (hsub : new.subtracting = (s.threads t).subtracting)
    (hwake : (s.threads t).waking = false) (hexp : ∀ v, new = .futexWait v → v ≠ 0)
    (hsleep : new = .asleep → s.count ≠ 0) : LatchInv c s' P where
  count := by rw [hcount, hsubs]; exact h.count
  pending := by rw [hthr]; exact h.marked.stay hsub
  calls := by rw [hcalls, hsubs]; exact h.calls
  within := by rw [hcalls]; exact h.within
  returned := hret
  expected := by rw [hthr]; exact h.expected_update hexp
  awaited := by rw [hthr, hcount]; exact h.awaited_update hwake hsleep

/-- A call of `CountDown` starts. -/
theorem LatchInv.called (h : LatchInv c s P) (hidle : s.threads t = .idle) (hcalls : s.calls < c)
    (thenWait : Bool) :
    LatchInv c ({ s with calls := s.calls + 1 }.goto t (.fetchSub thenWait)) (insert t P) := by
  obtain ⟨hpending, hcard⟩ := h.marked.enter (.fetchSub thenWait) (by rw [hidle]; rfl) rfl
  refine ⟨h.count, hpending, ?_, hcalls, h.returned, h.expected_update nofun,
    h.awaited_update (by rw [hidle]; rfl) nofun⟩
  show s.subs + (insert t P).card = s.calls + 1
  rw [hcard, ← h.calls]
  exact (Nat.add_assoc _ _ _).symm

/-- The `fetch_sub`: the thread that takes the counter to zero goes on to wake the sleepers. -/
theorem LatchInv.subtracted (h : LatchInv c s P) {thenWait : Bool}
    (hpc : s.threads t = .fetchSub thenWait) :
    LatchInv c ({ s with count := s.count - 1, subs := s.subs + 1 }.goto t
      (if s.count = 1 then .futexWake thenWait else .afterCountDown thenWait)) (P.erase t) := by
  have hnew : ∀ new : LatchPc,
      new = (if s.count = 1 then .futexWake thenWait else .afterCountDown thenWait) →
      new.subtracting = false ∧ ∀ v, new ≠ .futexWait v := by
    intro new e
    split at e <;> rw [e]
    · exact ⟨rfl, nofun⟩
    · cases thenWait <;> exact ⟨rfl, nofun⟩
  obtain ⟨hpending, hcard⟩ := h.marked.leave _ (by rw [hpc]; rfl) (hnew _ rfl).1
  refine ⟨?_, hpending, ?_, h.within, h.returned,
    h.expected_update fun v e => absurd e ((hnew _ rfl).2 v), fun t' _ => ?_⟩
  · show s.count - 1 = c - ((s.subs + 1 : ℕ) : ℤ)
    rw [h.count]
    omega
  · show s.subs + 1 + (P.erase t).card = s.calls
    have := h.calls
    omega
  · by_cases hone : s.count = 1
    · refine .inr ⟨t, ?_⟩
      show (Function.update s.threads t _ t).waking = true
      rw [Function.update_self, if_pos hone]
      rfl
    · refine .inl fun hz => hone ?_
      have hz : s.count - 1 = 0 := hz
      omega

/-- The `FutexWake`: nobody is asleep after it. -/
theorem LatchInv.woken (h : LatchInv c s P) {thenWait : Bool}
    (hpc : s.threads t = .futexWake thenWait) :
    LatchInv c (s.wakeAll.goto t (.afterCountDown thenWait)) P := by
  have hplace : ∀ t', t' ≠ t →
      (s.wakeAll.goto t (.afterCountDown thenWait)).threads t' =
        if s.threads t' = .asleep then .load else s.threads t' :=
    fun t' e => Function.update_of_ne e _ _
  have hself : (s.wakeAll.goto t (.afterCountDown thenWait)).threads t =
      .afterCountDown thenWait := Function.update_self _ _ _
  refine ⟨h.count, fun t' => ?_, h.calls, h.within, h.returned, fun t' v ht' => ?_,
    fun t' ht' => ?_⟩
  all_goals by_cases e : t' = t
  · rw [e, hself, h.pending t, hpc]
    cases thenWait <;> exact Iff.rfl
  · rw [hplace t' e, h.pending t']
    split
    next ha => rw [ha]; exact Iff.rfl
    next => exact Iff.rfl
  · rw [e, hself] at ht'
    cases thenWait <;> cases ht'
  · rw [hplace t' e] at ht'
    split at ht'
    next => cases ht'
    next => exact h.expected t' v ht'
  · rw [e, hself] at ht'
    cases thenWait <;> cases ht'
  · rw [hplace t' e] at ht'
    split at ht'
    next => cases ht'
    next ha => exact absurd ht' ha

/-- **Every step inside a call keeps the invariant.** -/
theorem LatchInv.advance (h : LatchInv c s P) {pc : LatchPc} (hpc : s.threads t = pc)
    (hs : s.advance t pc = some s') : ∃ P', LatchInv c s' P' := by
  cases pc with
  | idle => cases hs
  | asleep => cases hs
  | fetchSub thenWait =>
      obtain rfl := Option.some.inj hs
      exact ⟨_, h.subtracted hpc⟩
  | futexWake thenWait =>
      obtain rfl := Option.some.inj hs
      exact ⟨P, h.woken hpc⟩
  | load =>
      simp only [Latch.advance] at hs
      split at hs <;> obtain rfl := Option.some.inj hs
      next hz =>
        refine ⟨P, h.move .idle rfl rfl rfl rfl (fun k hk => ?_) (by rw [hpc]; rfl)
          (by rw [hpc]; rfl) nofun nofun⟩
        rcases List.mem_append.mp hk with hk | hk
        · exact h.returned k hk
        · -- The counter is zero, so all of the subtractions are done.
          have hcount := h.count
          rw [List.mem_singleton.mp hk]
          omega
      next hz =>
        exact ⟨P, h.move (.futexWait s.count) rfl rfl rfl rfl h.returned (by rw [hpc]; rfl)
          (by rw [hpc]; rfl) (fun v e => LatchPc.futexWait.inj e ▸ hz) nofun⟩
  | futexWait current =>
      simp only [Latch.advance] at hs
      split at hs <;> obtain rfl := Option.some.inj hs
      next hsame =>
        exact ⟨P, h.move .asleep rfl rfl rfl rfl h.returned (by rw [hpc]; rfl) (by rw [hpc]; rfl)
          nofun fun _ => hsame ▸ h.expected t current hpc⟩
      next =>
        exact ⟨P, h.move .load rfl rfl rfl rfl h.returned (by rw [hpc]; rfl) (by rw [hpc]; rfl)
          nofun nofun⟩

theorem LatchInv.step (h : LatchInv c s P) {a : LatchAction} (hc : s.within c a = true)
    (hs : s.step a = some s') : ∃ P', LatchInv c s' P' := by
  cases a with
  | countDown t | arriveAndWait t =>
      simp only [Latch.step, Latch.enter] at hs
      split at hs
      next hidle =>
        obtain rfl := Option.some.inj hs
        exact ⟨_, h.called hidle (of_decide_eq_true hc) _⟩
      next => cases hs
  | wait t =>
      simp only [Latch.step, Latch.enter] at hs
      split at hs
      next hidle =>
        obtain rfl := Option.some.inj hs
        exact ⟨P, h.move .load rfl rfl rfl rfl h.returned (by rw [hidle]; rfl) (by rw [hidle]; rfl)
          nofun nofun⟩
      next => cases hs
  | advance t => exact h.advance rfl hs
  | spurious t =>
      simp only [Latch.step] at hs
      split at hs
      next hasleep =>
        obtain rfl := Option.some.inj hs
        exact ⟨P, h.move .load rfl rfl rfl rfl h.returned (by rw [hasleep]; rfl)
          (by rw [hasleep]; rfl) nofun nofun⟩
      next => cases hs

end Steps

/-! ## 3. The latch is correct -/

section Main

variable {c : ℕ} {s : Latch}

theorem latchInv_reach (h : ReachWhere Latch.step (fun s a => s.within c a = true) (.start c) s) :
    ∃ P, LatchInv c s P :=
  h.invariant (I := fun s => ∃ P, LatchInv c s P) ⟨∅, latchInv_start c⟩
    fun _ _ _ ⟨_, hi⟩ hc hs => hi.step hc hs

/-- **The counter never leaves `0 .. c`**, so no `fetch_sub` overflows. -/
theorem latch_count_range
    (h : ReachWhere Latch.step (fun s a => s.within c a = true) (.start c) s) :
    0 ≤ s.count ∧ s.count ≤ c := by
  obtain ⟨P, hi⟩ := latchInv_reach h
  have hcount := hi.count
  have hcalls := hi.calls
  have hwithin := hi.within
  omega

/-- **No `Wait` returns before all `c` `fetch_sub`s have happened, and no wake-up is lost**: nobody
    is asleep in a state in which the counter is zero and no `CountDown` is in progress. -/
theorem latch_correct (c : ℕ) {s : Latch}
    (h : ReachWhere Latch.step (fun s a => s.within c a = true) (.start c) s) :
    (∀ k ∈ s.returns, k = c) ∧
      ¬ (s.count = 0 ∧ (∀ t, (s.threads t).counting = false) ∧ ∃ t, s.threads t = .asleep) := by
  obtain ⟨P, hi⟩ := latchInv_reach h
  refine ⟨hi.returned, fun ⟨hzero, hquiet, t, ht⟩ => ?_⟩
  rcases hi.awaited t ht with hne | ⟨w, hw⟩
  · exact hne hzero
  · have hcounting : (s.threads w).counting = true := by
      cases hpc : s.threads w <;> rw [hpc] at hw <;> first | rfl | cases hw
    rw [hquiet w] at hcounting
    cases hcounting

/-- Thread 0 waits and sleeps on 2. Thread 1 arrives, loads 1 and stands before its `FutexWait` when
    thread 2 counts down to zero; it does not sleep, and thread 2 wakes thread 0. -/
def lateSleeper : List LatchAction :=
  [.wait 0, .advance 0, .advance 0, .arriveAndWait 1, .advance 1, .advance 1, .countDown 2,
   .advance 2, .advance 1, .advance 1, .advance 2, .advance 0]

theorem latch_correct_lateSleeper :
    ∃ s, ReachWhere Latch.step (fun s a => s.within 2 a = true) (.start 2) s ∧
      s.returns = [2, 2] ∧ (∀ k ∈ s.returns, k = 2) ∧
      ¬ (s.count = 0 ∧ (∀ t, (s.threads t).counting = false) ∧ ∃ t, s.threads t = .asleep) := by
  obtain ⟨s, hs, hp⟩ := reach_of_run Latch.step (Latch.within 2) (.start 2) lateSleeper
    (fun s => decide (s.returns = [2, 2])) (by decide +kernel)
  exact ⟨s, hs, of_decide_eq_true hp, latch_correct 2 hs⟩

end Main

end HseMultithreading.Futex
