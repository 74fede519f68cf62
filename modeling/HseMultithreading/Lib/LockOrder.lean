/-
  File:      HseMultithreading/Lib/LockOrder.lean
  Subject:   Threads that take guards on mutexes one after the other and give them back in reverse
             order when they return.

  A thread is a list of mutexes: it constructs a guard on each of them in turn and then runs the
  destructors. A lock may be timed: it gives up, and the thread returns early.

  * `Guards`, `Guards.step` -- the owners of the mutexes and the threads; every lock, every
    destructor and every timeout is a step.
  * `Owned` -- a mutex has an owner exactly while a guard of that thread holds it.
  * `Deadlocked` -- threads that wait for each other; without timeouts none of them ever moves again
    (`deadlocked_step`).
  * `Ordered` -- every thread takes its mutexes by rising rank; then no state without a next step
    leaves a thread behind (`finished_of_stuck`), and every maximal run ends with all threads done:
    **`halts_of_ordered`**.
  * `halts_of_timed` -- timeouts need no order.
-/
import Mathlib.Data.Fintype.BigOperators
import Mathlib.Order.Preorder.Finite
import HseMultithreading.Lib.Amortized

namespace LockOrder

open StepSystem

variable {ι μ : Type*}

/-- A thread: the mutexes it has still to lock, those its guards hold, the last one first, and the
    mutex it has given up on. -/
structure Holder (μ : Type*) where
  ahead : List μ
  held : List μ
  failed : Option μ
  deriving DecidableEq

/-- The thread has returned. -/
def Holder.Done (k : Holder μ) : Prop := k.ahead = [] ∧ k.held = []

/-- The owner of each mutex, and the threads. -/
structure Guards (ι μ : Type*) where
  owner : μ → Option ι
  tasks : ι → Holder μ

def Guards.start (programs : ι → List μ) : Guards ι μ :=
  ⟨fun _ => none, fun t => ⟨programs t, [], none⟩⟩

/-- All threads have returned. -/
def Guards.Finished (s : Guards ι μ) : Prop := ∀ t, (s.tasks t).Done

/-- A step of a thread, or the timeout of the lock it waits in. -/
inductive Action (ι : Type*) where
  | advance (t : ι)
  | giveUp (t : ι)

section Machine

variable [DecidableEq ι] [DecidableEq μ]

/-- Thread `t` locks the next mutex, when it is free, or runs the next destructor. -/
def Guards.advance (s : Guards ι μ) (t : ι) : Holder μ → Option (Guards ι μ)
  | ⟨m :: ahead, held, failed⟩ =>
    if s.owner m = none then
      some ⟨Function.update s.owner m (some t),
        Function.update s.tasks t ⟨ahead, m :: held, failed⟩⟩
    else none
  | ⟨[], m :: held, failed⟩ =>
    some ⟨Function.update s.owner m none, Function.update s.tasks t ⟨[], held, failed⟩⟩
  | ⟨[], [], _⟩ => none

/-- The lock thread `t` waits in gives up: it returns. -/
def Guards.giveUp (s : Guards ι μ) (t : ι) : Holder μ → Option (Guards ι μ)
  | ⟨m :: _, held, _⟩ => some { s with tasks := Function.update s.tasks t ⟨[], held, some m⟩ }
  | ⟨[], _, _⟩ => none

def Guards.step (timed : Bool) (s : Guards ι μ) : Action ι → Option (Guards ι μ)
  | .advance t => s.advance t (s.tasks t)
  | .giveUp t => if timed then s.giveUp t (s.tasks t) else none

/-! ## 1. What a step does -/

/-- **The three kinds of steps.** -/
inductive Moved (s : Guards ι μ) (t : ι) : Holder μ → Guards ι μ → Prop where
  | lock (m : μ) (ahead held : List μ) (failed : Option μ) (hfree : s.owner m = none) :
      Moved s t ⟨m :: ahead, held, failed⟩ ⟨Function.update s.owner m (some t),
        Function.update s.tasks t ⟨ahead, m :: held, failed⟩⟩
  | unlock (m : μ) (held : List μ) (failed : Option μ) :
      Moved s t ⟨[], m :: held, failed⟩ ⟨Function.update s.owner m none,
        Function.update s.tasks t ⟨[], held, failed⟩⟩
  | giveUp (m : μ) (ahead held : List μ) (failed : Option μ) :
      Moved s t ⟨m :: ahead, held, failed⟩
        { s with tasks := Function.update s.tasks t ⟨[], held, some m⟩ }

/-- The thread an action is of. -/
def Action.thread : Action ι → ι
  | .advance t | .giveUp t => t

section Steps

variable {timed : Bool} {s s' : Guards ι μ} {a : Action ι} {t : ι} {m : μ}

theorem advance_moved {k : Holder μ} (h : s.advance t k = some s') : Moved s t k s' := by
  obtain ⟨ahead, held, failed⟩ := k
  cases ahead with
  | cons m ahead =>
      simp only [Guards.advance] at h
      split at h
      next hfree =>
        obtain rfl := Option.some.inj h
        exact .lock m ahead held failed hfree
      next => cases h
  | nil =>
      cases held with
      | nil => cases h
      | cons m held =>
          obtain rfl := Option.some.inj h
          exact .unlock m held failed

theorem giveUp_moved {k : Holder μ} (h : s.giveUp t k = some s') : Moved s t k s' := by
  obtain ⟨ahead, held, failed⟩ := k
  cases ahead with
  | nil => cases h
  | cons m ahead =>
      obtain rfl := Option.some.inj h
      exact .giveUp m ahead held failed

theorem step_moved (h : s.step timed a = some s') : Moved s a.thread (s.tasks a.thread) s' := by
  cases a with
  | advance t => exact advance_moved h
  | giveUp t =>
      cases timed with
      | true => exact giveUp_moved h
      | false => cases h

/-! ## 2. Owners -/

/-- **A mutex has an owner exactly while a guard of that thread holds it.** -/
structure Owned (s : Guards ι μ) : Prop where
  owner : ∀ m t, s.owner m = some t ↔ m ∈ (s.tasks t).held
  nodup : ∀ t, (s.tasks t).held.Nodup

omit [DecidableEq ι] [DecidableEq μ] in
theorem owned_start (programs : ι → List μ) : Owned (.start programs) where
  owner _ _ := iff_of_false (fun h => by cases h) List.not_mem_nil
  nodup _ := List.nodup_nil

theorem Owned.moved (h : Owned s) {k : Holder μ} (hk : s.tasks t = k) (hm : Moved s t k s') :
    Owned s' := by
  cases hm with
  | lock m ahead held failed hfree =>
      have hnew : m ∉ held := fun hmem => by
        have := (h.owner m t).mpr (by rw [hk]; exact hmem)
        rw [hfree] at this
        cases this
      refine ⟨fun m' t' => ?_, ?_⟩
      · by_cases em : m' = m <;> by_cases et : t' = t
        · simp [em, et]
        · have hout : m ∉ (s.tasks t').held := fun hmem => by
            rw [(h.owner m t').mpr hmem] at hfree
            cases hfree
          simp [em, et, Ne.symm et, hout]
        · simp [em, et, h.owner, hk]
        · simp [em, et, h.owner]
      · rw [Function.forall_update_iff s.tasks fun _ k => k.held.Nodup]
        refine ⟨List.nodup_cons.mpr ⟨hnew, ?_⟩, fun t' _ => h.nodup t'⟩
        have := h.nodup t
        rw [hk] at this
        exact this
  | unlock m held failed =>
      have hnd : (m :: held).Nodup := by
        have := h.nodup t
        rw [hk] at this
        exact this
      refine ⟨fun m' t' => ?_, ?_⟩
      · by_cases em : m' = m <;> by_cases et : t' = t
        · simp [em, et, (List.nodup_cons.mp hnd).1]
        · have hout : m ∉ (s.tasks t').held := fun hmem => et (Option.some.inj
            (((h.owner m t').mpr hmem).symm.trans ((h.owner m t).mpr (by rw [hk]; simp))))
          simp [em, et, hout]
        · simp [em, et, h.owner, hk]
        · simp [em, et, h.owner]
      · rw [Function.forall_update_iff s.tasks fun _ k => k.held.Nodup]
        exact ⟨(List.nodup_cons.mp hnd).2, fun t' _ => h.nodup t'⟩
  | giveUp m ahead held failed =>
      refine ⟨fun m' t' => ?_, ?_⟩
      · by_cases et : t' = t
        · simp [et, h.owner, hk]
        · simp [et, h.owner]
      · rw [Function.forall_update_iff s.tasks fun _ k => k.held.Nodup]
        refine ⟨?_, fun t' _ => h.nodup t'⟩
        have := h.nodup t
        rw [hk] at this
        exact this

theorem Owned.step (h : Owned s) (hs : s.step timed a = some s') : Owned s' :=
  h.moved rfl (step_moved hs)

/-- A thread that cannot move waits for a mutex that somebody owns, or has returned. -/
theorem waits_of_stuck (h : s.step timed (.advance t) = none) :
    (s.tasks t).Done ∨ ∃ m rest u, (s.tasks t).ahead = m :: rest ∧ s.owner m = some u := by
  change s.advance t (s.tasks t) = none at h
  generalize s.tasks t = k at h ⊢
  obtain ⟨ahead, held, failed⟩ := k
  cases ahead with
  | cons m ahead =>
      simp only [Guards.advance] at h
      split at h
      · cases h
      next howned =>
        obtain ⟨u, hu⟩ := Option.ne_none_iff_exists'.mp howned
        exact .inr ⟨m, ahead, u, rfl, hu⟩
  | nil =>
      cases held with
      | nil => exact .inl ⟨rfl, rfl⟩
      | cons m held => cases h

/-- A thread whose next mutex is free locks it. -/
theorem advance_locks {ahead held : List μ} {failed : Option μ}
    (hk : s.tasks t = ⟨m :: ahead, held, failed⟩) (hfree : s.owner m = none) :
    s.step timed (.advance t) = some ⟨Function.update s.owner m (some t),
      Function.update s.tasks t ⟨ahead, m :: held, failed⟩⟩ := by
  simp only [Guards.step, hk, Guards.advance, hfree, if_true]

/-- A thread whose next mutex is owned does not move. -/
theorem advance_waits {rest : List μ} {u : ι} (hahead : (s.tasks t).ahead = m :: rest)
    (howner : s.owner m = some u) : s.step timed (.advance t) = none := by
  change s.advance t (s.tasks t) = none
  generalize s.tasks t = k at hahead
  obtain ⟨ahead, held, failed⟩ := k
  obtain rfl : ahead = m :: rest := hahead
  simp only [Guards.advance, howner, reduceCtorEq, if_false]

/-! ## 3. Threads that wait for each other -/

/-- **Each thread of `S` waits for a mutex that a thread of `S` holds.** -/
def Deadlocked (s : Guards ι μ) (S : Set ι) : Prop :=
  ∀ t ∈ S, ∃ m rest, ∃ u ∈ S, (s.tasks t).ahead = m :: rest ∧ s.owner m = some u

/-- Without timeouts a deadlock stays as it is, whatever the other threads do. -/
theorem deadlocked_step (ho : Owned s) {S : Set ι} (h : Deadlocked s S)
    (hs : s.step false a = some s') : Deadlocked s' S := by
  cases a with
  | giveUp t => cases hs
  | advance t =>
      have hm : Moved s t (s.tasks t) s' := advance_moved hs
      have ht : t ∉ S := fun ht => by
        obtain ⟨m, rest, u, -, hahead, howner⟩ := h t ht
        rw [advance_waits hahead howner] at hs
        cases hs
      intro t' ht'
      have hne : t' ≠ t := fun e => ht (e ▸ ht')
      obtain ⟨m, rest, u, hu, hahead, howner⟩ := h t' ht'
      have hut : u ≠ t := fun e => ht (e ▸ hu)
      refine ⟨m, rest, u, hu, ?_⟩
      generalize hk : s.tasks t = k at hm
      cases hm with
      | lock m' ahead held failed hfree =>
          have hmm : m ≠ m' := fun e => by rw [e, hfree] at howner; cases howner
          exact ⟨by simpa only [Function.update_of_ne hne] using hahead,
            by simpa only [Function.update_of_ne hmm] using howner⟩
      | unlock m' held failed =>
          have hmm : m ≠ m' := fun e => by
            have hheld := (ho.owner m' t).mpr (by rw [hk]; exact List.mem_cons_self)
            rw [e, hheld] at howner
            exact hut (Option.some.inj howner).symm
          exact ⟨by simpa only [Function.update_of_ne hne] using hahead,
            by simpa only [Function.update_of_ne hmm] using howner⟩
      | giveUp m' ahead held failed =>
          exact ⟨by simpa only [Function.update_of_ne hne] using hahead, howner⟩

omit [DecidableEq ι] [DecidableEq μ] in
/-- A thread of it has not returned. -/
theorem Deadlocked.not_finished {S : Set ι} (h : Deadlocked s S) (ht : t ∈ S) : ¬ s.Finished := by
  intro hfin
  obtain ⟨m, rest, -, -, hahead, -⟩ := h t ht
  rw [(hfin t).1] at hahead
  cases hahead

theorem deadlocked_run {S : Set ι} {as : List (Action ι)} :
    ∀ {s}, Owned s → Deadlocked s S → run (Guards.step false) s as = some s' → Deadlocked s' S := by
  induction as with
  | nil =>
      intro s _ h hrun
      exact Option.some.inj hrun ▸ h
  | cons a as ih =>
      intro s ho h hrun
      obtain ⟨s₁, hs, hrest⟩ := Option.bind_eq_some_iff.mp hrun
      exact ih (ho.step hs) (deadlocked_step ho h hs) hrest

/-! ## 4. A rising order -/

/-- **The thread takes its mutexes by rising rank**: those it holds, from the first one on, and
    those still ahead. -/
def Ordered (rank : μ → ℕ) (k : Holder μ) : Prop :=
  (k.held.reverse ++ k.ahead).Pairwise fun m m' => rank m < rank m'

theorem ordered_moved {rank : μ → ℕ} {k : Holder μ} (h : ∀ u, Ordered rank (s.tasks u))
    (hk : s.tasks t = k) (hm : Moved s t k s') : ∀ u, Ordered rank (s'.tasks u) := by
  have ht := h t
  rw [hk] at ht
  cases hm with
  | lock m ahead held failed hfree =>
      rw [Function.forall_update_iff s.tasks fun _ k => Ordered rank k]
      refine ⟨?_, fun u _ => h u⟩
      unfold Ordered at ht ⊢
      rw [List.reverse_cons, List.append_assoc]
      exact ht
  | unlock m held failed =>
      rw [Function.forall_update_iff s.tasks fun _ k => Ordered rank k]
      refine ⟨ht.sublist ?_, fun u _ => h u⟩
      rw [List.append_nil, List.append_nil, List.reverse_cons]
      exact List.sublist_append_left _ _
  | giveUp m ahead held failed =>
      rw [Function.forall_update_iff s.tasks fun _ k => Ordered rank k]
      refine ⟨ht.sublist ?_, fun u _ => h u⟩
      rw [List.append_nil]
      exact List.sublist_append_left _ _

/-- **No state without a next step leaves a thread behind**: of the mutexes that are waited for,
    take one of the highest rank; its owner would wait for a higher one. -/
theorem finished_of_stuck [Finite ι] {rank : μ → ℕ} (ho : Owned s)
    (h : ∀ u, Ordered rank (s.tasks u)) (hstuck : Stuck (Guards.step timed) s) : s.Finished := by
  by_contra hnot
  obtain ⟨t₀, ht₀⟩ := not_forall.mp hnot
  have hwait := fun t => waits_of_stuck (hstuck (.advance t))
  let W : Set ι := {t | ¬ (s.tasks t).Done}
  obtain ⟨t, ht, hmax⟩ := (Set.toFinite W).exists_maximalFor
    (fun t => ((s.tasks t).ahead.head?.map rank).getD 0) W ⟨t₀, ht₀⟩
  obtain ⟨m, rest, u, hahead, howner⟩ := (hwait t).resolve_left ht
  have hheld : m ∈ (s.tasks u).held := (ho.owner m u).mp howner
  have hu : u ∈ W := fun hdone => by
    rw [hdone.2] at hheld
    exact List.not_mem_nil hheld
  obtain ⟨m', rest', u', hahead', -⟩ := (hwait u).resolve_left hu
  have hless : rank m < rank m' := by
    have hord := h u
    unfold Ordered at hord
    rw [hahead'] at hord
    exact (List.pairwise_append.mp hord).2.2 m (List.mem_reverse.mpr hheld) m' List.mem_cons_self
  have hmax' := hmax hu
  simp only [hahead, hahead', List.head?_cons, Option.map_some, Option.getD_some] at hmax'
  have hle := hmax' hless.le
  omega

/-! ## 5. Every run ends -/

/-- The steps the thread has still to take, at most. -/
def Holder.left (k : Holder μ) : ℕ := 2 * k.ahead.length + k.held.length

theorem left_moved [Fintype ι] {k : Holder μ} (hk : s.tasks t = k) (hm : Moved s t k s') :
    ∑ u, (s'.tasks u).left < ∑ u, (s.tasks u).left := by
  have hmove : ∀ new : Holder μ, new.left < k.left → s'.tasks = Function.update s.tasks t new →
      ∑ u, (s'.tasks u).left < ∑ u, (s.tasks u).left := by
    intro new hless htasks
    refine Amortized.sum_pay (d := 0) (c := 0) (Finset.mem_univ t) (fun u _ e => ?_) ?_
    · rw [htasks, Function.update_of_ne e]
      exact Nat.le_refl _
    · rw [htasks, Function.update_self, hk]
      omega
  cases hm with
  | lock m ahead held failed hfree =>
      refine hmove ⟨ahead, m :: held, failed⟩ ?_ rfl
      simp only [Holder.left, List.length_cons]
      omega
  | unlock m held failed =>
      refine hmove ⟨[], held, failed⟩ ?_ rfl
      simp only [Holder.left, List.length_cons]
      omega
  | giveUp m ahead held failed =>
      refine hmove ⟨[], held, some m⟩ ?_ rfl
      simp only [Holder.left, List.length_cons, List.length_nil]
      omega

end Steps

section Maximal

variable [Fintype ι] {programs : ι → List μ}

/-- **The rule of lock order.** -/
theorem halts_of_ordered (rank : μ → ℕ)
    (h : ∀ t, (programs t).Pairwise fun m m' => rank m < rank m') (timed : Bool) :
    Halts (Guards.step timed) (.start programs) Guards.Finished :=
  halts_of_measure (I := fun s => Owned s ∧ ∀ u, Ordered rank (s.tasks u))
    (fun s => ∑ u, (s.tasks u).left)
    (fun _ _ _ hI hs => ⟨⟨hI.1.step hs, ordered_moved hI.2 rfl (step_moved hs)⟩,
      left_moved rfl (step_moved hs)⟩)
    ⟨owned_start programs, h⟩ fun _ hI hstuck => finished_of_stuck hI.1 hI.2 hstuck

/-- **Timeouts need no order.** -/
theorem halts_of_timed (programs : ι → List μ) :
    Halts (Guards.step true) (.start programs) Guards.Finished := by
  refine halts_of_measure (I := Owned) (fun s => ∑ u, (s.tasks u).left)
    (fun _ _ _ hI hs => ⟨hI.step hs, left_moved rfl (step_moved hs)⟩) (owned_start programs)
    fun s _ hstuck t => ?_
  refine (waits_of_stuck (hstuck (.advance t))).resolve_right fun ⟨m, rest, u, hahead, _⟩ => ?_
  have hgive : s.giveUp t (s.tasks t) = none := hstuck (.giveUp t)
  generalize s.tasks t = k at hahead hgive
  obtain ⟨ahead, held, failed⟩ := k
  obtain rfl : ahead = m :: rest := hahead
  cases hgive

end Maximal

end Machine

end LockOrder
