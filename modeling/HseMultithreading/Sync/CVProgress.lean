/-
  File:      HseMultithreading/Sync/CVProgress.lean
  Subject:   No wake-up of `CVLock` is lost, and the loops always come to their end.

  The lock does not exclude, but it does not hang either. Whoever sleeps in `lock` has seen the flag
  set, and the flag is set only while some thread still has its `unlock` to call; that thread will
  notify. A notification that finds sleepers turns one of them into the next thread of this kind.

  * `CvPc.willNotify` -- the places from which a thread still comes by `notify_one`;
  * `CvMoved` -- what a step of one thread changes, said once for all of them;
  * `CvLive` -- the invariant: a set flag has a thread in the lock, a sleeper has a thread that will
    notify. It is kept by stale and by spurious wake-ups too;
  * `CVLock.cost` -- the steps a thread can still be part of: at most 13 for each iteration, as the
    `if` puts a thread to sleep at most once for each `lock`;
  * **`cvlock_always_finishes`** -- no run is longer than `13 * (n * k)` steps, and where it cannot
    go on, unless by a spurious wake-up, all threads have run their loops to the end.
-/
import HseMultithreading.Lib.Amortized
import HseMultithreading.Sync.CVLock

namespace HseMultithreading.Sync

open StepSystem TokenRule

/-! ## 1. Steps of one thread -/

/-- The thread has a `notify_one` ahead of it, and nothing but `m_mtx` can keep it from there. -/
def CvPc.willNotify : CvPc → Bool
  | .woken | .lockSet | .lockRelease | .read | .write _ | .unlockAcquire | .unlockClear
  | .unlockNotify => true
  | _ => false

/-- The steps of its iteration a thread has behind it. -/
def CvPc.rank : CvPc → ℕ
  | .idle => 0
  | .lockAcquire => 1
  | .lockTest => 2
  | .waiting => 3
  | .woken => 4
  | .lockSet => 5
  | .lockRelease => 6
  | .read => 7
  | .write _ => 8
  | .unlockAcquire => 9
  | .unlockClear => 10
  | .unlockNotify => 11
  | .unlockRelease => 12

theorem CvPc.rank_le (pc : CvPc) : pc.rank ≤ 12 := by
  cases pc <;> simp [CvPc.rank]

/-- The steps thread `t` can still be part of. -/
def CVLock.cost (s : CVLock) (t : ℕ) : ℕ := 13 * s.left t - (s.threads t).rank

/-- **Thread `t` moves from `pc` to `new`.** -/
structure CvMoved (s : CVLock) (t : ℕ) (pc new : CvPc) (s' : CVLock) : Prop where
  threads : s'.threads = Function.update s.threads t new
  mutex : Pass CvPc.inMtx t pc new s.mtx s'.mtx
  flag : s'.locked = true → new.inLock = true ∨ s.locked = true ∧ new.inLock = pc.inLock
  asleep : t ∈ s'.waiters ↔ new = .waiting
  others : ∀ u, u ≠ t → (u ∈ s'.waiters ↔ u ∈ s.waiters)
  tested : new = .waiting → s.locked = true
  notifies : pc.willNotify = true →
    new.willNotify = true ∨ s'.waiters = ∅ ∨ ∃ w, w ≠ t ∧ (s.threads w).willNotify = true
  active : new ≠ .idle → s'.left t ≠ 0
  left : ∀ u, u ≠ t → s'.left u = s.left u
  fewer : s'.left t ≤ s.left t
  spends : 13 * s'.left t - new.rank < 13 * s.left t - pc.rank

/-- **What keeps the loops going**: `m_mtx` is a token, a set flag has a thread in the lock, a
    sleeper has a thread that will notify. -/
structure CvLive (n : ℕ) (s : CVLock) : Prop where
  mutex : Token CvPc.inMtx s.threads s.mtx
  flag : s.locked = true → ∃ t, (s.threads t).inLock = true
  asleep : ∀ t, t ∈ s.waiters ↔ s.threads t = .waiting
  notifier : s.waiters ≠ ∅ → ∃ t, (s.threads t).willNotify = true
  active : ∀ t, s.threads t ≠ .idle → s.left t ≠ 0
  few : ∀ t, s.left t ≠ 0 → t < n

theorem cvLive_start (n k : ℕ) : CvLive n (.start n k) where
  mutex _ := ⟨fun h => (by cases h), fun h => (by cases h)⟩
  flag h := by cases h
  asleep _ := ⟨fun h => absurd h (Finset.notMem_empty _), fun h => by cases h⟩
  notifier h := absurd rfl h
  active _ h := absurd rfl h
  few t h := Classical.byContradiction fun ht => h (if_neg ht)

section Steps

variable {n : ℕ} {s s' : CVLock} {t : ℕ} {pc new : CvPc}

/-- The threads at the places with `mark` still include one, if the one that moved is still there
    or was not needed. -/
theorem exists_update {mark : CvPc → Bool} {threads : ℕ → CvPc}
    (h : ∃ u, mark (threads u) = true)
    (hnew : mark (threads t) = true → mark new = true ∨ ∃ w, w ≠ t ∧ mark (threads w) = true) :
    ∃ u, mark (Function.update threads t new u) = true := by
  obtain ⟨u, hu⟩ := h
  by_cases e : u = t
  · rcases hnew (e ▸ hu) with hmark | ⟨w, hne, hw⟩
    · exact ⟨t, by rw [Function.update_self]; exact hmark⟩
    · exact ⟨w, by rw [Function.update_of_ne hne]; exact hw⟩
  · exact ⟨u, by rw [Function.update_of_ne e]; exact hu⟩

/-- **A step of one thread keeps the invariant.** -/
theorem CvLive.moved (h : CvLive n s) (hpc : s.threads t = pc) (hm : CvMoved s t pc new s') :
    CvLive n s' where
  mutex := by
    rw [hm.threads]
    exact h.mutex.pass (hpc.symm ▸ hm.mutex)
  flag hl := by
    rw [hm.threads]
    rcases hm.flag hl with hin | ⟨hs, hsame⟩
    · exact ⟨t, by rw [Function.update_self]; exact hin⟩
    · refine exists_update (h.flag hs) fun hold => .inl ?_
      rw [hsame, ← hpc]
      exact hold
  asleep := by
    rw [hm.threads, Function.forall_update_iff s.threads fun u pc => u ∈ s'.waiters ↔ pc = .waiting]
    exact ⟨hm.asleep, fun u hu => (hm.others u hu).trans (h.asleep u)⟩
  notifier hw := by
    rw [hm.threads]
    by_cases hempty : s.waiters = ∅
    · -- The sleeper is new: the flag it has seen has a thread in the lock.
      obtain ⟨u, hu⟩ := Finset.nonempty_iff_ne_empty.mpr hw
      obtain rfl : u = t := by
        by_contra e
        rw [hm.others u e, hempty] at hu
        exact Finset.notMem_empty u hu
      have hnew : new = .waiting := hm.asleep.mp hu
      obtain ⟨w, hin⟩ := h.flag (hm.tested hnew)
      have hwill : (s.threads w).willNotify = true := by
        revert hin
        cases s.threads w <;> simp [CvPc.inLock, CvPc.willNotify]
      refine exists_update ⟨w, hwill⟩ fun hold => ?_
      rcases hm.notifies (hpc ▸ hold) with hn | he | hother
      · exact .inl hn
      · exact absurd he hw
      · exact .inr hother
    · refine exists_update (h.notifier hempty) fun hold => ?_
      rcases hm.notifies (hpc ▸ hold) with hn | he | hother
      · exact .inl hn
      · exact absurd he hw
      · exact .inr hother
  active := active_update hm.left h.active hm.threads hm.active
  few := left_of_step hm.left h.few hm.fewer

/-- **A step of one thread lowers the cost.** -/
theorem CvLive.cost_moved (h : CvLive n s) (hpc : s.threads t = pc) (hm : CvMoved s t pc new s') :
    ∑ u ∈ Finset.range n, s'.cost u < ∑ u ∈ Finset.range n, s.cost u := by
  have hspends : s'.cost t < s.cost t := by
    unfold CVLock.cost
    rw [hm.threads, Function.update_self, hpc]
    exact hm.spends
  have ht : t < n := h.few t fun h0 => by
    unfold CVLock.cost at hspends
    rw [h0] at hspends
    omega
  refine Amortized.sum_pay (d := 0) (c := 0) (Finset.mem_range.mpr ht) (fun u _ e => ?_) (by omega)
  unfold CVLock.cost
  rw [hm.threads, Function.update_of_ne e, hm.left u e]
  exact Nat.le_refl _

/-! ## 2. Every step is one of these -/

/-- A step that leaves `m_locked`, the wait set and the iterations alone. -/
theorem CvMoved.glide {mtx : Option ℕ} {x : ℕ} (h : CvLive n s) (hpc : s.threads t = pc)
    (hleft : s.left t ≠ 0) (new : CvPc) (hm : Pass CvPc.inMtx t pc new s.mtx mtx)
    (hold : pc ≠ .waiting) (hwait : new ≠ .waiting)
    (hlock : new.inLock = pc.inLock) (hnote : pc.willNotify = true → new.willNotify = true)
    (hrank : pc.rank < new.rank) :
    CvMoved s t pc new ({ s with mtx := mtx, x := x }.goto t new) where
  threads := rfl
  mutex := hm
  flag hl := .inr ⟨hl, hlock⟩
  asleep := iff_of_false (fun hw => hold (hpc.symm.trans ((h.asleep t).mp hw))) hwait
  others _ _ := Iff.rfl
  tested e := absurd e hwait
  notifies e := .inl (hnote e)
  active _ := hleft
  left _ _ := rfl
  fewer := Nat.le_refl _
  spends := by
    have hle := new.rank_le
    show 13 * s.left t - new.rank < 13 * s.left t - pc.rank
    omega

theorem CvMoved.acquires (h : CvLive n s) (hpc : s.threads t = pc) (hidle : pc ≠ .idle)
    (hs : s.acquire t new = some s') (hin : new.inMtx = true)
    (hold : pc ≠ .waiting) (hwait : new ≠ .waiting) (hlock : new.inLock = pc.inLock)
    (hnote : pc.willNotify = true → new.willNotify = true) (hrank : pc.rank < new.rank) :
    CvMoved s t pc new s' := by
  unfold CVLock.acquire at hs
  cases hm : s.mtx with
  | some _ => rw [hm] at hs; cases hs
  | none =>
      rw [hm] at hs
      obtain rfl := Option.some.inj hs
      refine .glide h hpc (h.active t (by rw [hpc]; exact hidle)) new ?_ hold hwait hlock hnote
        hrank
      rw [hm]
      exact .take hin

theorem CvMoved.wake (h : CvLive n s) {w : ℕ} (hw : w ∈ s.waiters) :
    CvMoved s w .waiting .woken (s.wake w) where
  threads := rfl
  mutex := .keep s.mtx rfl
  flag hl := .inr ⟨hl, rfl⟩
  asleep := iff_of_false (Finset.notMem_erase w s.waiters) (by simp)
  others _ e := by simp only [CVLock.wake, CVLock.goto, Finset.mem_erase, ne_eq, e,
    not_false_eq_true, true_and]
  tested h := by cases h
  notifies h := by cases h
  active _ := h.active w (by rw [(h.asleep w).mp hw]; simp)
  left _ _ := rfl
  fewer := Nat.le_refl _
  spends := by
    have hleft : s.left w ≠ 0 := h.active w (by rw [(h.asleep w).mp hw]; simp)
    show 13 * s.left w - 4 < 13 * s.left w - 3
    omega

/-- `notify_one` and the step behind it: nobody slept, or the one it woke will notify in turn. -/
theorem CvMoved.notified (h : CvLive n s) (hpc : s.threads t = .unlockNotify)
    (hnext : s.waiters = ∅ ∨ ∃ w, w ≠ t ∧ (s.threads w).willNotify = true) :
    CvMoved s t .unlockNotify .unlockRelease (s.goto t .unlockRelease) where
  threads := rfl
  mutex := .keep s.mtx rfl
  flag hl := .inr ⟨hl, rfl⟩
  asleep := iff_of_false (fun hw => by rw [(h.asleep t).mp hw] at hpc; cases hpc) (by simp)
  others _ _ := Iff.rfl
  tested h := by cases h
  notifies _ := .inr hnext
  active _ := h.active t (by rw [hpc]; simp)
  left _ _ := rfl
  fewer := Nat.le_refl _
  spends := by
    have hleft : s.left t ≠ 0 := h.active t (by rw [hpc]; simp)
    show 13 * s.left t - 12 < 13 * s.left t - 11
    omega

/-- A set flag sends the thread to sleep. -/
theorem CvMoved.sleeps (h : CvLive n s) (hpc : s.threads t = .lockTest) (hl : s.locked = true) :
    CvMoved s t .lockTest .waiting
      ({ s with mtx := none, waiters := insert t s.waiters }.goto t .waiting) where
  threads := rfl
  mutex := by
    rw [(h.mutex t).mp (by rw [hpc]; rfl)]
    exact .drop rfl
  flag h := .inr ⟨h, rfl⟩
  asleep := iff_of_true (Finset.mem_insert_self t s.waiters) rfl
  others u e := by simp only [CVLock.goto, Finset.mem_insert, e, false_or]
  tested _ := hl
  notifies h := by cases h
  active _ := h.active t (by simp [hpc])
  left _ _ := rfl
  fewer := Nat.le_refl _
  spends := by
    have hleft : s.left t ≠ 0 := h.active t (by simp [hpc])
    show 13 * s.left t - 3 < 13 * s.left t - 2
    omega

/-- A step inside `m_mtx` that writes the flag: it is set by a thread that is in the lock from then
    on. -/
theorem CvMoved.writes (h : CvLive n s) (hpc : s.threads t = pc) (hidle : pc ≠ .idle) (new : CvPc)
    (hold : pc ≠ .waiting) (hwait : new ≠ .waiting) (hmtx : new.inMtx = pc.inMtx) {flag : Bool}
    (hflag : flag = true → new.inLock = true) (hnote : new.willNotify = true)
    (hrank : pc.rank < new.rank) :
    CvMoved s t pc new ({ s with locked := flag }.goto t new) where
  threads := rfl
  mutex := .keep s.mtx hmtx
  flag hl := .inl (hflag hl)
  asleep := iff_of_false (fun hw => hold (hpc.symm.trans ((h.asleep t).mp hw))) hwait
  others _ _ := Iff.rfl
  tested e := absurd e hwait
  notifies _ := .inl hnote
  active _ := h.active t (by rw [hpc]; exact hidle)
  left _ _ := rfl
  fewer := Nat.le_refl _
  spends := by
    have hleft : s.left t ≠ 0 := h.active t (by rw [hpc]; exact hidle)
    have hle := new.rank_le
    show 13 * s.left t - new.rank < 13 * s.left t - pc.rank
    omega

/-- The end of `unlock` ends the iteration. -/
theorem CvMoved.ends (h : CvLive n s) (hpc : s.threads t = .unlockRelease) :
    CvMoved s t .unlockRelease .idle ({ s with
      mtx := none, left := Function.update s.left t (s.left t - 1) }.goto t .idle) where
  threads := rfl
  mutex := by
    rw [(h.mutex t).mp (by rw [hpc]; rfl)]
    exact .drop rfl
  flag h := .inr ⟨h, rfl⟩
  asleep := iff_of_false (fun hw => by rw [(h.asleep t).mp hw] at hpc; cases hpc) (by simp)
  others _ _ := Iff.rfl
  tested h := by cases h
  notifies h := by cases h
  active e := absurd rfl e
  left u e := Function.update_of_ne e _ _
  fewer := by
    show Function.update s.left t (s.left t - 1) t ≤ s.left t
    rw [Function.update_self]
    exact Nat.sub_le _ _
  spends := by
    have hleft : s.left t ≠ 0 := h.active t (by simp [hpc])
    show 13 * Function.update s.left t (s.left t - 1) t - 0 < 13 * s.left t - 12
    rw [Function.update_self]
    omega

/-- **A step of a thread.** -/
theorem CvLive.advance_moved (h : CvLive n s) (hpc : s.threads t = pc)
    (hs : s.advance t pc = some s') : ∃ new, CvMoved s t pc new s' := by
  have hleft : pc ≠ .idle → s.left t ≠ 0 := fun e => h.active t (by rw [hpc]; exact e)
  have hmtx : pc.inMtx = true → s.mtx = some t := fun e => (h.mutex t).mp (by rw [hpc]; exact e)
  cases pc with
  | idle =>
      simp only [CVLock.advance] at hs
      split at hs
      · cases hs
      next hne =>
        obtain rfl := Option.some.inj hs
        exact ⟨_, .glide h hpc hne .lockAcquire (.keep s.mtx rfl) (by simp) (by simp) rfl
          (fun h => by cases h) (by decide)⟩
  | lockAcquire =>
      exact ⟨_, .acquires h hpc (by simp) hs rfl (by simp) (by simp) rfl (fun h => by cases h)
        (by decide)⟩
  | lockTest =>
      simp only [CVLock.advance] at hs
      split at hs
      next hl =>
        obtain rfl := Option.some.inj hs
        exact ⟨_, .sleeps h hpc hl⟩
      next hl =>
        obtain rfl := Option.some.inj hs
        exact ⟨_, .glide h hpc (hleft (by simp)) .lockSet (.keep s.mtx rfl) (by simp) (by simp)
          rfl (fun h => by cases h) (by decide)⟩
  | waiting => cases hs
  | woken =>
      exact ⟨_, .acquires h hpc (by simp) hs rfl (by simp) (by simp) rfl (fun _ => rfl)
        (by decide)⟩
  | lockSet =>
      obtain rfl := Option.some.inj hs
      exact ⟨_, .writes h hpc (by simp) .lockRelease (by simp) (by simp) rfl (fun _ => rfl) rfl
        (by decide)⟩
  | lockRelease =>
      obtain rfl := Option.some.inj hs
      refine ⟨_, .glide h hpc (hleft (by simp)) .read ?_ (by simp) (by simp) rfl (fun _ => rfl)
        (by decide)⟩
      rw [hmtx rfl]
      exact .drop rfl
  | read =>
      obtain rfl := Option.some.inj hs
      exact ⟨_, .glide h hpc (hleft (by simp)) (.write s.x) (.keep s.mtx rfl) (by simp) (by simp)
        rfl (fun _ => rfl) (by simp [CvPc.rank])⟩
  | write v =>
      obtain rfl := Option.some.inj hs
      exact ⟨_, .glide h hpc (hleft (by simp)) .unlockAcquire (.keep s.mtx rfl) (by simp) (by simp)
        rfl (fun _ => rfl) (by simp [CvPc.rank])⟩
  | unlockAcquire =>
      exact ⟨_, .acquires h hpc (by simp) hs rfl (by simp) (by simp) rfl (fun _ => rfl)
        (by decide)⟩
  | unlockClear =>
      obtain rfl := Option.some.inj hs
      exact ⟨_, .writes h hpc (by simp) .unlockNotify (by simp) (by simp) rfl (fun h => by cases h)
        rfl (by decide)⟩
  | unlockNotify =>
      simp only [CVLock.advance] at hs
      split at hs
      next hempty =>
        obtain rfl := Option.some.inj hs
        exact ⟨_, .notified h hpc (.inl hempty)⟩
      · cases hs
  | unlockRelease =>
      obtain rfl := Option.some.inj hs
      exact ⟨_, .ends h hpc⟩

theorem CvLive.ne_of_notify (h : CvLive n s) {w : ℕ} (hpc : s.threads t = .unlockNotify)
    (hw : w ∈ s.waiters) : w ≠ t := by
  rintro rfl
  rw [(h.asleep w).mp hw] at hpc
  cases hpc

/-- **Every step keeps the invariant and lowers the cost.** -/
theorem CvLive.step (h : CvLive n s) {a : CvAction} (hs : s.step a = some s') :
    CvLive n s' ∧ ∑ u ∈ Finset.range n, s'.cost u < ∑ u ∈ Finset.range n, s.cost u := by
  cases a with
  | advance t =>
      obtain ⟨new, hm⟩ := h.advance_moved rfl hs
      exact ⟨h.moved rfl hm, h.cost_moved rfl hm⟩
  | notify t w =>
      simp only [CVLock.step] at hs
      split at hs
      next hcond =>
        obtain ⟨hpc, hw⟩ := hcond
        obtain rfl := Option.some.inj hs
        -- Two threads move in this step, the sleeper first.
        have hsleep := (h.asleep w).mp hw
        have hwake := CvMoved.wake h hw
        have hne : w ≠ t := h.ne_of_notify hpc hw
        have hpc' : (s.wake w).threads t = .unlockNotify :=
          (Function.update_of_ne hne.symm _ _).trans hpc
        have h' := h.moved hsleep hwake
        have hm := CvMoved.notified h' hpc'
          (.inr ⟨w, hne, by rw [hwake.threads, Function.update_self]; rfl⟩)
        exact ⟨h'.moved hpc' hm, (h'.cost_moved hpc' hm).trans (h.cost_moved hsleep hwake)⟩
      next => cases hs
  | spurious w =>
      simp only [CVLock.step] at hs
      split at hs
      next hw =>
        obtain rfl := Option.some.inj hs
        have hsleep := (h.asleep w).mp hw
        exact ⟨h.moved hsleep (.wake h hw), h.cost_moved hsleep (.wake h hw)⟩
      next => cases hs

/-! ## 3. Where no step is possible -/

/-- The owner of `m_mtx` is never kept. -/
theorem CvLive.owner_moves (h : CvLive n s) (hm : s.mtx = some t) :
    ∃ a, a.isSpurious = false ∧ s.step a ≠ none := by
  have hin : (s.threads t).inMtx = true := (h.mutex t).mpr hm
  cases hpc : s.threads t with
  | idle | lockAcquire | waiting | woken | read | write v | unlockAcquire =>
      rw [hpc] at hin
      cases hin
  | lockTest =>
      refine ⟨.advance t, rfl, ?_⟩
      simp only [CVLock.step, hpc, CVLock.advance]
      split <;> exact Option.some_ne_none _
  | lockSet | lockRelease | unlockClear | unlockRelease =>
      refine ⟨.advance t, rfl, ?_⟩
      simp only [CVLock.step, hpc, CVLock.advance]
      exact Option.some_ne_none _
  | unlockNotify =>
      rcases Finset.eq_empty_or_nonempty s.waiters with hempty | ⟨w, hw⟩
      · refine ⟨.advance t, rfl, ?_⟩
        simp only [CVLock.step, hpc, CVLock.advance, if_pos hempty]
        exact Option.some_ne_none _
      · refine ⟨.notify t w, rfl, ?_⟩
        simp only [CVLock.step, if_pos (And.intro hpc hw)]
        exact Option.some_ne_none _

/-- With `m_mtx` free, a thread is kept in the wait only, or at its end. -/
theorem CvLive.free_moves (h : CvLive n s) (hm : s.mtx = none) (t : ℕ)
    (hstuck : s.step (.advance t) = none) :
    s.threads t = .waiting ∨ s.threads t = .idle ∧ s.left t = 0 := by
  have hin : (s.threads t).inMtx ≠ true := fun e => by
    rw [(h.mutex t).mp e] at hm
    cases hm
  cases hpc : s.threads t with
  | waiting => exact .inl rfl
  | idle =>
      refine .inr ⟨rfl, ?_⟩
      by_contra hleft
      simp only [CVLock.step, hpc, CVLock.advance, if_neg hleft] at hstuck
      cases hstuck
  | lockAcquire | woken | unlockAcquire =>
      simp only [CVLock.step, hpc, CVLock.advance, CVLock.acquire, hm] at hstuck
      cases hstuck
  | read | write v =>
      simp only [CVLock.step, hpc, CVLock.advance] at hstuck
      cases hstuck
  | lockTest | lockSet | lockRelease | unlockClear | unlockNotify | unlockRelease =>
      rw [hpc] at hin
      exact absurd rfl hin

/-- **Where nothing but a spurious wake-up could happen, all loops are done**: threads that were
    left asleep would have one that will notify, and that one could move. -/
theorem CvLive.finished (h : CvLive n s)
    (hstuck : ∀ a : CvAction, a.isSpurious = false → s.step a = none) : s.Finished n := by
  cases hm : s.mtx with
  | some t =>
      obtain ⟨a, ha, hstep⟩ := h.owner_moves hm
      exact absurd (hstuck a ha) hstep
  | none =>
      have hrest := fun t => h.free_moves hm t (hstuck (.advance t) rfl)
      have hempty : s.waiters = ∅ := by
        by_contra hw
        obtain ⟨t, ht⟩ := h.notifier hw
        rcases hrest t with hpc | ⟨hpc, -⟩ <;> rw [hpc] at ht <;> cases ht
      intro t _
      refine (hrest t).resolve_left fun hpc => ?_
      have hw := (h.asleep t).mpr hpc
      rw [hempty] at hw
      exact Finset.notMem_empty t hw

end Steps

theorem cost_start (n k : ℕ) :
    ∑ t ∈ Finset.range n, (CVLock.start n k).cost t = 13 * (n * k) := by
  have hcost : ∀ t ∈ Finset.range n, (CVLock.start n k).cost t = 13 * k := fun t ht => by
    show 13 * (if t < n then k else 0) - 0 = 13 * k
    rw [if_pos (Finset.mem_range.mp ht), Nat.sub_zero]
  rw [Finset.sum_const_nat hcost, Finset.card_range]
  exact Nat.mul_left_comm n 13 k

/-- **`CVLock` loses no wake-up**: for any number of threads and iterations, no run, stale and
    spurious wake-ups included, is longer than `13 * (n * k)` steps; and in a reachable state in
    which no thread can move and nobody can be notified, all threads are done. -/
theorem cvlock_always_finishes (n k : ℕ) :
    (∀ as s, run CVLock.step (.start n k) as = some s → as.length ≤ 13 * (n * k)) ∧
      ∀ s, Reach CVLock.step (.start n k) s →
        (∀ a : CvAction, a.isSpurious = false → s.step a = none) → s.Finished n := by
  constructor
  · intro as s hrun
    rw [← cost_start]
    exact run_length_le (I := CvLive n) (fun s => ∑ t ∈ Finset.range n, s.cost t)
      (fun _ _ _ h hs => h.step hs) (cvLive_start n k) hrun
  · intro s hs
    exact (hs.invariant (I := CvLive n) (cvLive_start n k) fun _ _ _ h _ hstep =>
      (h.step hstep).1).finished

end HseMultithreading.Sync
