/-
  File:      HseMultithreading/Sync/CVLock.lean
  Subject:   `CVLock` (`condition_variable/condvar_intro.cpp`): a lock made of a mutex, a condition
             variable and a flag, and the loop of increments it guards.

  `lock` tests `m_locked` with an `if`: a thread that returns from the wait takes the lock without
  looking at the flag again. Between the notification and the moment the woken thread has `m_mtx`
  back, another thread may have taken the lock; and a wait may return with nobody having unlocked.

  * `CVLock`, `CVLock.step` -- any number of threads that run the loop: every acquisition and
    release of `m_mtx`, the wait, the wake-ups, the accesses to `m_locked` and to `x` are steps.
  * `CVLock.wakesFree` -- a woken thread gets `m_mtx` back only while `m_locked` is false.
  * **`exclusive_wakesFree`** -- in every run of such steps at most one thread is between `lock` and
    `unlock`, and a completed run leaves `x = n * k`. No `++x` overflows while `n * k` is an `int`.
  * `exclusion_fails` -- without it both fail, with a spurious wake-up and without one.
-/
import HseMultithreading.Lib.Run
import HseMultithreading.Lib.Token

namespace HseMultithreading.Sync

open StepSystem TokenRule

/-! ## 1. The machine -/

/-- What a thread does NEXT. -/
inductive CvPc where
  | idle
  | lockAcquire
  | lockTest
  | waiting
  | woken
  | lockSet
  | lockRelease
  | read
  | write (v : ℕ)
  | unlockAcquire
  | unlockClear
  | unlockNotify
  | unlockRelease
  deriving DecidableEq

/-- The owner of `m_mtx`, `m_locked`, the threads asleep in `m_mutexUnlocked`, where each thread
    stands and how many iterations it has left, and the guarded variable. -/
structure CVLock where
  mtx : Option ℕ
  locked : Bool
  waiters : Finset ℕ
  threads : ℕ → CvPc
  left : ℕ → ℕ
  x : ℕ

/-- `n` threads with `k` iterations each. -/
def CVLock.start (n k : ℕ) : CVLock :=
  ⟨none, false, ∅, fun _ => .idle, fun t => if t < n then k else 0, 0⟩

def CVLock.goto (s : CVLock) (t : ℕ) (pc : CvPc) : CVLock :=
  { s with threads := Function.update s.threads t pc }

/-- Thread `t` gets `m_mtx`, when it is free. -/
def CVLock.acquire (s : CVLock) (t : ℕ) (pc : CvPc) : Option CVLock :=
  match s.mtx with
  | none => some ({ s with mtx := some t }.goto t pc)
  | some _ => none

/-- Thread `w` leaves the wait and has to get `m_mtx` back. -/
def CVLock.wake (s : CVLock) (w : ℕ) : CVLock :=
  { s with waiters := s.waiters.erase w }.goto w .woken

/-- The next step of thread `t`. The wait releases `m_mtx` and falls asleep in one step; the test
    is an `if`, so after the wait the flag is set at once. -/
def CVLock.advance (s : CVLock) (t : ℕ) : CvPc → Option CVLock
  | .idle => if s.left t = 0 then none else some (s.goto t .lockAcquire)
  | .lockAcquire => s.acquire t .lockTest
  | .lockTest =>
    if s.locked then some ({ s with mtx := none, waiters := insert t s.waiters }.goto t .waiting)
    else some (s.goto t .lockSet)
  | .waiting => none
  | .woken => s.acquire t .lockSet
  | .lockSet => some ({ s with locked := true }.goto t .lockRelease)
  | .lockRelease => some ({ s with mtx := none }.goto t .read)
  | .read => some (s.goto t (.write s.x))
  | .write v => some ({ s with x := v + 1 }.goto t .unlockAcquire)
  | .unlockAcquire => s.acquire t .unlockClear
  | .unlockClear => some ({ s with locked := false }.goto t .unlockNotify)
  | .unlockNotify => if s.waiters = ∅ then some (s.goto t .unlockRelease) else none
  | .unlockRelease =>
    some ({ s with mtx := none, left := Function.update s.left t (s.left t - 1) }.goto t .idle)

/-- `notify t w` is the `notify_one` of thread `t` that wakes `w`; with nobody asleep it is a step
    of `advance`. `spurious w` is a wake-up nobody has asked for. -/
inductive CvAction where
  | advance (t : ℕ)
  | notify (t w : ℕ)
  | spurious (w : ℕ)

def CVLock.step (s : CVLock) : CvAction → Option CVLock
  | .advance t => s.advance t (s.threads t)
  | .notify t w =>
    if s.threads t = .unlockNotify ∧ w ∈ s.waiters then some ((s.wake w).goto t .unlockRelease)
    else none
  | .spurious w => if w ∈ s.waiters then some (s.wake w) else none

/-- The thread has returned from `lock` and not yet called `unlock`. -/
def CvPc.critical : CvPc → Bool
  | .read | .write _ => true
  | _ => false

/-- **Mutual exclusion.** -/
def CVLock.Exclusive (s : CVLock) : Prop :=
  ∀ t t', (s.threads t).critical = true → (s.threads t').critical = true → t = t'

/-- The `n` threads have run their loops to the end. -/
def CVLock.Finished (n : ℕ) (s : CVLock) : Prop := ∀ t < n, s.threads t = .idle ∧ s.left t = 0

instance (n : ℕ) (s : CVLock) : Decidable (s.Finished n) :=
  Nat.decidableBallLT n fun t _ => s.threads t = .idle ∧ s.left t = 0

/-- **A woken thread gets `m_mtx` back only while `m_locked` is false.** -/
def CVLock.wakesFree (s : CVLock) : CvAction → Bool
  | .advance t => !(s.threads t == .woken && s.locked)
  | _ => true

/-! ## 2. The two tokens -/

/-- The thread owns `m_mtx`. -/
def CvPc.inMtx : CvPc → Bool
  | .lockTest | .lockSet | .lockRelease | .unlockClear | .unlockNotify | .unlockRelease => true
  | _ => false

/-- The thread has taken the lock and not given it back. -/
def CvPc.inLock : CvPc → Bool
  | .lockRelease | .read | .write _ | .unlockAcquire | .unlockClear => true
  | _ => false

/-- The increment of this iteration is done. -/
def CvPc.counted : CvPc → Bool
  | .unlockAcquire | .unlockClear | .unlockNotify | .unlockRelease => true
  | _ => false

/-- The increments a thread still has to make. -/
def CVLock.due (s : CVLock) (t : ℕ) : ℕ :=
  if (s.threads t).counted then s.left t - 1 else s.left t

/-- **The invariant of runs without stale wake-ups**: `m_mtx` is a token, the lock is another one,
    with `o` for its owner, and `m_locked` says whether there is one. -/
structure CvInv (n k : ℕ) (s : CVLock) (o : Option ℕ) : Prop where
  mutex : Token CvPc.inMtx s.threads s.mtx
  owner : Token CvPc.inLock s.threads o
  locked : s.locked = o.isSome
  setting : ∀ t, s.threads t = .lockSet → o = none
  writing : ∀ t v, s.threads t = .write v → v = s.x
  asleep : ∀ t, t ∈ s.waiters ↔ s.threads t = .waiting
  active : ∀ t, s.threads t ≠ .idle → s.left t ≠ 0
  few : ∀ t, s.left t ≠ 0 → t < n
  counted : Counted s.due (Finset.range n) s.x (n * k)

theorem cvInv_start (n k : ℕ) : CvInv n k (.start n k) none where
  mutex _ := ⟨fun h => (by cases h), fun h => (by cases h)⟩
  owner _ := ⟨fun h => (by cases h), fun h => (by cases h)⟩
  locked := rfl
  setting _ h := by cases h
  writing _ _ h := by cases h
  asleep _ := ⟨fun h => absurd h (Finset.notMem_empty _), fun h => by cases h⟩
  active _ h := absurd rfl h
  few t h := Classical.byContradiction fun ht => h (if_neg ht)
  counted := by
    have hdue : ∀ t ∈ Finset.range n, (CVLock.start n k).due t = k :=
      fun t ht => if_pos (Finset.mem_range.mp ht)
    show 0 + ∑ t ∈ Finset.range n, (CVLock.start n k).due t = n * k
    rw [Finset.sum_congr rfl hdue, Finset.sum_const, Finset.card_range, Nat.zero_add]
    rfl

section Steps

variable {n k : ℕ} {s s' : CVLock} {o o' : Option ℕ} {t : ℕ}

/-- **A step of thread `t` to place `new`**: what it does to the tokens, and what is left to say
    about `t` itself. -/
theorem CvInv.move (h : CvInv n k s o) (new : CvPc)
    (hthr : s'.threads = Function.update s.threads t new)
    (hm : Pass CvPc.inMtx t (s.threads t) new s.mtx s'.mtx)
    (ho : Pass CvPc.inLock t (s.threads t) new o o') (hlocked : s'.locked = o'.isSome)
    (hset : new = .lockSet → o' = none)
    (hsame : o' = o ∨ (s.threads t).inMtx = true)
    (hwrite : ∀ t' v, s'.threads t' = .write v → v = s'.x)
    (hasleep : ∀ t', t' ∈ s'.waiters ↔ s'.threads t' = .waiting)
    (hactive : new ≠ .idle → s'.left t ≠ 0) (hleft : ∀ t', t' ≠ t → s'.left t' = s.left t')
    (hless : s'.left t ≤ s.left t)
    (hcount : Counted s'.due (Finset.range n) s'.x (n * k)) : CvInv n k s' o' where
  mutex := by rw [hthr]; exact h.mutex.pass hm
  owner := by rw [hthr]; exact h.owner.pass ho
  locked := hlocked
  setting t' ht' := by
    by_cases e : t' = t
    · rw [hthr, e, Function.update_self] at ht'
      exact hset ht'
    · rw [hthr, Function.update_of_ne e] at ht'
      rcases hsame with hsame | hmtx
      · rw [hsame]
        exact h.setting t' ht'
      · -- Both threads would own `m_mtx`.
        exact absurd (h.mutex.unique (by rw [ht']; rfl) hmtx) e
  writing := hwrite
  asleep := hasleep
  active := active_update hleft h.active hthr hactive
  few := left_of_step hleft h.few hless
  counted := hcount

theorem CvInv.writing_update (h : CvInv n k s o) {new : CvPc}
    (hnew : ∀ v, new = .write v → v = s.x) :
    ∀ t' v, Function.update s.threads t new t' = .write v → v = s.x := by
  rw [Function.forall_update_iff s.threads fun _ pc => ∀ v, pc = .write v → v = s.x]
  exact ⟨hnew, fun t' _ => h.writing t'⟩

theorem CvInv.asleep_update (h : CvInv n k s o) {new : CvPc} (hold : s.threads t ≠ .waiting)
    (hnew : new ≠ .waiting) :
    ∀ t', t' ∈ s.waiters ↔ Function.update s.threads t new t' = .waiting := by
  rw [Function.forall_update_iff s.threads fun t' pc => t' ∈ s.waiters ↔ pc = .waiting]
  exact ⟨iff_of_false (fun hw => hold ((h.asleep t).mp hw)) hnew, fun t' _ => h.asleep t'⟩

/-- What is due from the other threads does not change. -/
theorem CVLock.due_of_ne {new : CvPc} (hthr : s'.threads = Function.update s.threads t new)
    (hleft : ∀ t', t' ≠ t → s'.left t' = s.left t') (t' : ℕ) (e : t' ≠ t) :
    s'.due t' = s.due t' := by
  unfold CVLock.due
  rw [hthr, Function.update_of_ne e, hleft t' e]

/-- Thread `t` moves on, `x` and the wait set stay as they are, and no increment is made. -/
theorem CvInv.glide (h : CvInv n k s o) {pc : CvPc} (hpc : s.threads t = pc) (new : CvPc)
    {mtx : Option ℕ} {locked : Bool} (hm : Pass CvPc.inMtx t pc new s.mtx mtx)
    (ho : Pass CvPc.inLock t pc new o o') (hlocked : locked = o'.isSome)
    (hset : new = .lockSet → o' = none) (hsame : o' = o ∨ pc.inMtx = true)
    (hwrite : ∀ v, new = .write v → v = s.x) (hold : pc ≠ .waiting) (hnew : new ≠ .waiting)
    (hcount : new.counted = pc.counted) (hactive : s.left t ≠ 0) :
    CvInv n k { s with
      mtx := mtx, locked := locked, threads := Function.update s.threads t new } o' := by
  subst hpc
  refine h.move new rfl hm ho hlocked hset hsame (h.writing_update hwrite)
    (h.asleep_update hold hnew) (fun _ => hactive) (fun _ _ => rfl) (Nat.le_refl _)
    (h.counted.stay (CVLock.due_of_ne rfl fun _ _ => rfl) ?_)
  simp only [CVLock.due, Function.update_self, hcount]

/-- The test finds the lock taken: `wait` releases `m_mtx` and sleeps. -/
theorem CvInv.sleep (h : CvInv n k s o) (hpc : s.threads t = .lockTest) :
    CvInv n k ({ s with mtx := none, waiters := insert t s.waiters }.goto t .waiting) o := by
  have hm : s.mtx = some t := (h.mutex t).mp (by rw [hpc]; rfl)
  refine h.move .waiting rfl ?_ (.keep o (by rw [hpc]; rfl)) h.locked nofun (.inl rfl)
    (h.writing_update nofun) (fun t' => ?_) (fun _ => h.active t (by rw [hpc]; nofun))
    (fun _ _ => rfl) (Nat.le_refl _)
    (h.counted.stay (CVLock.due_of_ne rfl fun _ _ => rfl) ?_)
  · rw [hm]
    exact .drop rfl
  · by_cases e : t' = t
    · simp only [CVLock.goto, e, Function.update_self, Finset.mem_insert_self]
    · simp only [CVLock.goto, Function.update_of_ne e, Finset.mem_insert, e, false_or, h.asleep]
  · simp only [CVLock.goto, CVLock.due, Function.update_self, hpc]
    rfl

/-- A sleeper wakes up. -/
theorem CvInv.wake (h : CvInv n k s o) {w : ℕ} (hw : w ∈ s.waiters) : CvInv n k (s.wake w) o := by
  have hpc : s.threads w = .waiting := (h.asleep w).mp hw
  refine h.move .woken rfl (.keep s.mtx (by rw [hpc]; rfl)) (.keep o (by rw [hpc]; rfl)) h.locked
    nofun (.inl rfl) (h.writing_update nofun) (fun t' => ?_)
    (fun _ => h.active w (by rw [hpc]; nofun)) (fun _ _ => rfl) (Nat.le_refl _)
    (h.counted.stay (CVLock.due_of_ne rfl fun _ _ => rfl) ?_)
  · by_cases e : t' = w
    · simp only [CVLock.wake, CVLock.goto, e, Function.update_self, Finset.notMem_erase,
        reduceCtorEq]
    · simp only [CVLock.wake, CVLock.goto, Function.update_of_ne e, Finset.mem_erase, ne_eq, e,
        not_false_eq_true, true_and, h.asleep]
  · simp only [CVLock.wake, CVLock.goto, CVLock.due, Function.update_self, hpc]
    rfl

/-- The increment: nobody else stands between the read and the write. -/
theorem CvInv.increment (h : CvInv n k s o) {v : ℕ} (hpc : s.threads t = .write v) :
    CvInv n k ({ s with x := v + 1 }.goto t .unlockAcquire) o := by
  have hv : v = s.x := h.writing t v hpc
  have hleft : s.left t ≠ 0 := h.active t (by rw [hpc]; nofun)
  refine h.move .unlockAcquire rfl (.keep s.mtx (by rw [hpc]; rfl)) (.keep o (by rw [hpc]; rfl))
    h.locked nofun (.inl rfl) (fun t' v' ht' => ?_)
    (h.asleep_update (by rw [hpc]; nofun) nofun) (fun _ => hleft) (fun _ _ => rfl)
    (Nat.le_refl _) ?_
  · by_cases e : t' = t
    · simp only [CVLock.goto, e, Function.update_self, reduceCtorEq] at ht'
    · simp only [CVLock.goto, Function.update_of_ne e] at ht'
      have hown : CvPc.inLock (s.threads t') = true := by rw [ht']; rfl
      exact absurd (h.owner.unique hown (by rw [hpc]; rfl)) e
  · rw [hv]
    refine h.counted.pay (Finset.mem_range.mpr (h.few t hleft))
      (CVLock.due_of_ne rfl fun _ _ => rfl) ?_
    have hbefore : s.due t = s.left t := by
      unfold CVLock.due
      rw [hpc]
      rfl
    have hafter : ({ s with x := s.x + 1 }.goto t .unlockAcquire).due t = s.left t - 1 := by
      simp only [CVLock.goto, CVLock.due, Function.update_self, CvPc.counted, if_true]
    omega

/-- The end of an iteration. -/
theorem CvInv.iterate (h : CvInv n k s o) (hpc : s.threads t = .unlockRelease) :
    CvInv n k ({ s with
      mtx := none, left := Function.update s.left t (s.left t - 1) }.goto t .idle) o := by
  have hm : s.mtx = some t := (h.mutex t).mp (by rw [hpc]; rfl)
  have hless : Function.update s.left t (s.left t - 1) t ≤ s.left t := by
    rw [Function.update_self]
    exact Nat.sub_le _ _
  have hothers : ∀ t', t' ≠ t → Function.update s.left t (s.left t - 1) t' = s.left t' :=
    fun t' e => Function.update_of_ne e _ _
  refine h.move .idle rfl ?_ (.keep o (by rw [hpc]; rfl)) h.locked nofun (.inl rfl)
    (h.writing_update nofun) (h.asleep_update (by rw [hpc]; nofun) nofun) (fun e => absurd rfl e)
    hothers hless (h.counted.stay (CVLock.due_of_ne rfl hothers) ?_)
  · rw [hm]
    exact .drop rfl
  · simp only [CVLock.goto, CVLock.due, Function.update_self, hpc]
    rfl

theorem CvInv.free (h : CvInv n k s o) (hl : s.locked = false) : o = none := by
  rw [h.locked] at hl
  exact Option.isSome_eq_false_iff.mp hl |> Option.isNone_iff_eq_none.mp

/-- `m_mtx` is acquired on the way to a place at which it is owned. -/
theorem CvInv.acquires (h : CvInv n k s o) {pc new : CvPc} (hpc : s.threads t = pc)
    (hs : s.acquire t new = some s') (hin : new.inMtx = true) (hlock : new.inLock = pc.inLock)
    (hset : new = .lockSet → o = none) (hwrite : ∀ v, new ≠ .write v) (hold : pc ≠ .waiting)
    (hnew : new ≠ .waiting) (hcount : new.counted = pc.counted) (hidle : pc ≠ .idle) :
    CvInv n k s' o := by
  unfold CVLock.acquire at hs
  cases hm : s.mtx with
  | some _ => rw [hm] at hs; cases hs
  | none =>
      rw [hm] at hs
      rw [← Option.some.inj hs]
      refine h.glide hpc new ?_ (.keep o hlock) h.locked hset (.inl rfl)
        (fun v e => absurd e (hwrite v)) hold hnew hcount (h.active t (by rw [hpc]; exact hidle))
      rw [hm]
      exact .take hin

/-- **A step of a thread that is not a stale wake-up keeps the invariant.** -/
theorem CvInv.advance (h : CvInv n k s o) {pc : CvPc} (hpc : s.threads t = pc)
    (hfree : pc = .woken → s.locked = false) (hs : s.advance t pc = some s') :
    ∃ o', CvInv n k s' o' := by
  have hact : pc ≠ .idle → s.left t ≠ 0 := fun e => h.active t (by rw [hpc]; exact e)
  have hmtx : pc.inMtx = true → s.mtx = some t := fun e => (h.mutex t).mp (by rw [hpc]; exact e)
  have hown : pc.inLock = true → o = some t := fun e => (h.owner t).mp (by rw [hpc]; exact e)
  cases pc with
  | idle =>
      simp only [CVLock.advance] at hs
      split at hs
      · cases hs
      next hleft =>
        obtain rfl := Option.some.inj hs
        exact ⟨o, h.glide hpc .lockAcquire (.keep s.mtx rfl) (.keep o rfl) h.locked nofun (.inl rfl)
          nofun nofun nofun rfl hleft⟩
  | lockAcquire => exact ⟨o, h.acquires hpc hs rfl rfl nofun nofun nofun nofun rfl nofun⟩
  | lockTest =>
      simp only [CVLock.advance] at hs
      split at hs
      · obtain rfl := Option.some.inj hs
        exact ⟨o, h.sleep hpc⟩
      next hl =>
        obtain rfl := Option.some.inj hs
        have ho := h.free (Bool.eq_false_iff.mpr hl)
        exact ⟨o, h.glide hpc .lockSet (.keep s.mtx rfl) (.keep o rfl) h.locked (fun _ => ho)
          (.inl rfl) nofun nofun nofun rfl (hact nofun)⟩
  | waiting => cases hs
  | woken =>
      exact ⟨o, h.acquires hpc hs rfl rfl (fun _ => h.free (hfree rfl)) nofun nofun nofun rfl nofun⟩
  | lockSet =>
      obtain rfl := Option.some.inj hs
      obtain rfl := h.setting t hpc
      exact ⟨some t, h.glide hpc .lockRelease (.keep s.mtx rfl) (.take rfl) rfl nofun (.inr rfl)
        nofun nofun nofun rfl (hact nofun)⟩
  | lockRelease =>
      obtain rfl := Option.some.inj hs
      refine ⟨o, h.glide hpc .read ?_ (.keep o rfl) h.locked nofun (.inl rfl) nofun nofun nofun rfl
        (hact nofun)⟩
      rw [hmtx rfl]
      exact .drop rfl
  | read =>
      obtain rfl := Option.some.inj hs
      exact ⟨o, h.glide hpc (.write s.x) (.keep s.mtx rfl) (.keep o rfl) h.locked nofun (.inl rfl)
        (fun _ e => (CvPc.write.inj e).symm) nofun nofun rfl (hact nofun)⟩
  | write v =>
      obtain rfl := Option.some.inj hs
      exact ⟨o, h.increment hpc⟩
  | unlockAcquire => exact ⟨o, h.acquires hpc hs rfl rfl nofun nofun nofun nofun rfl nofun⟩
  | unlockClear =>
      obtain rfl := Option.some.inj hs
      obtain rfl := hown rfl
      exact ⟨none, h.glide hpc .unlockNotify (.keep s.mtx rfl) (.drop rfl) rfl nofun (.inr rfl)
        nofun nofun nofun rfl (hact nofun)⟩
  | unlockNotify =>
      simp only [CVLock.advance] at hs
      split at hs
      · obtain rfl := Option.some.inj hs
        exact ⟨o, h.glide hpc .unlockRelease (.keep s.mtx rfl) (.keep o rfl) h.locked nofun
          (.inl rfl) nofun nofun nofun rfl (hact nofun)⟩
      · cases hs
  | unlockRelease =>
      obtain rfl := Option.some.inj hs
      exact ⟨o, h.iterate hpc⟩

theorem CvInv.step (h : CvInv n k s o) {a : CvAction} (hfree : s.wakesFree a = true)
    (hs : s.step a = some s') : ∃ o', CvInv n k s' o' := by
  cases a with
  | advance t =>
      refine h.advance rfl (fun hw => ?_) hs
      simp only [CVLock.wakesFree, hw, beq_self_eq_true, Bool.true_and, Bool.not_eq_true'] at hfree
      exact hfree
  | notify t w =>
      simp only [CVLock.step] at hs
      split at hs
      next hcond =>
        obtain ⟨hpc, hw⟩ := hcond
        obtain rfl := Option.some.inj hs
        have hne : t ≠ w := by
          intro e
          rw [e, (h.asleep w).mp hw] at hpc
          cases hpc
        have hpc' : (s.wake w).threads t = .unlockNotify :=
          (Function.update_of_ne hne _ _).trans hpc
        have h' := h.wake hw
        exact ⟨o, h'.glide hpc' .unlockRelease (.keep _ rfl) (.keep o rfl) h'.locked nofun
          (.inl rfl) nofun nofun nofun rfl (h'.active t (by rw [hpc']; nofun))⟩
      next => cases hs
  | spurious w =>
      simp only [CVLock.step] at hs
      split at hs
      next hw =>
        obtain rfl := Option.some.inj hs
        exact ⟨o, h.wake hw⟩
      next => cases hs

end Steps

/-! ## 3. Exclusion and the sum -/

/-- **Without stale wake-ups at most one thread is between `lock` and `unlock`, and every completed
    run leaves `x = n * k`**, for any number of threads and iterations. -/
theorem exclusive_wakesFree (n k : ℕ) {s : CVLock}
    (h : ReachWhere CVLock.step (fun s a => s.wakesFree a = true) (.start n k) s) :
    s.Exclusive ∧ s.x ≤ n * k ∧ (s.Finished n → s.x = n * k) := by
  obtain ⟨o, hi⟩ := h.invariant (I := fun s => ∃ o, CvInv n k s o) ⟨none, cvInv_start n k⟩
    fun _ _ _ ⟨_, hi⟩ hc hs => hi.step hc hs
  have hcrit : ∀ pc : CvPc, pc.critical = true → pc.inLock = true := by
    intro pc hpc
    cases pc <;> first | rfl | cases hpc
  refine ⟨fun t t' ht ht' => hi.owner.unique (hcrit _ ht) (hcrit _ ht'), hi.counted.le,
    fun hfin => ?_⟩
  refine hi.counted.paid fun t ht => ?_
  obtain ⟨hidle, hleft⟩ := hfin t (Finset.mem_range.mp ht)
  unfold CVLock.due
  rw [hidle]
  exact hleft

/-- The next `m` steps of thread `t`. -/
def steps (t m : ℕ) : List CvAction := List.replicate m (.advance t)

/-- Thread 1 waits while thread 0 is inside, is notified, and goes on when thread 0 has left. -/
def handOver : List CvAction :=
  steps 0 5 ++ steps 1 3 ++ steps 0 4 ++ [.notify 0 1] ++ steps 0 1 ++ steps 1 9

theorem exclusive_wakesFree_handOver :
    ∃ s, ReachWhere CVLock.step (fun s a => s.wakesFree a = true) (.start 2 1) s ∧
      s.Finished 2 ∧ s.x = 2 * 1 ∧ s.Exclusive := by
  obtain ⟨s, hs, hp⟩ := reach_of_run CVLock.step CVLock.wakesFree (.start 2 1) handOver
    (fun s => decide (s.Finished 2)) (by decide +kernel)
  have hfin : s.Finished 2 := of_decide_eq_true hp
  obtain ⟨hexcl, -, hsum⟩ := exclusive_wakesFree 2 1 hs
  exact ⟨s, hs, hfin, hsum hfin, hexcl⟩

def CvAction.isSpurious : CvAction → Bool
  | .spurious _ => true
  | _ => false

/-- Thread 0 notifies thread 1, leaves, and takes the lock again before thread 1 has `m_mtx` back.
    Then both read `x`. -/
def barging : List CvAction :=
  steps 0 5 ++ steps 1 3 ++ steps 0 4 ++ [.notify 0 1] ++ steps 0 6 ++ steps 1 3

/-- Both write, and run their loops to the end. -/
def bargingEnd : List CvAction := steps 0 1 ++ steps 1 1 ++ steps 0 5 ++ steps 1 16

/-- Thread 1 wakes up while thread 0 is inside. Then both read `x`. -/
def spuriousWake : List CvAction := steps 0 5 ++ steps 1 3 ++ [.spurious 1] ++ steps 1 3

def spuriousWakeEnd : List CvAction := steps 0 1 ++ steps 1 1 ++ steps 0 5 ++ steps 1 5

/-- **Two threads between `lock` and `unlock`, and an increment lost**: by a notified thread that
    comes late, with no spurious wake-up at all, and by a spurious wake-up. -/
theorem exclusion_fails :
    (∃ s, ReachWhere CVLock.step (fun _ a => (!a.isSpurious) = true) (.start 2 2) s ∧
      ¬ s.Exclusive) ∧
    (∃ s, ReachWhere CVLock.step (fun _ a => (!a.isSpurious) = true) (.start 2 2) s ∧
      s.Finished 2 ∧ s.x = 3) ∧
    (∃ s, Reach CVLock.step (.start 2 1) s ∧ ¬ s.Exclusive) ∧
    (∃ s, Reach CVLock.step (.start 2 1) s ∧ s.Finished 2 ∧ s.x = 1) := by
  have hboth : ∀ s : CVLock, ((s.threads 0).critical && (s.threads 1).critical) = true →
      ¬ s.Exclusive := by
    intro s hs he
    obtain ⟨h0, h1⟩ := Bool.and_eq_true_iff.mp hs
    exact absurd (he 0 1 h0 h1) Nat.zero_ne_one
  refine ⟨?_, ?_, ?_, ?_⟩
  · obtain ⟨s, hs, hp⟩ := reach_of_run CVLock.step (fun _ a => !a.isSpurious) (.start 2 2) barging
      (fun s => (s.threads 0).critical && (s.threads 1).critical) (by decide +kernel)
    exact ⟨s, hs, hboth s hp⟩
  · obtain ⟨s, hs, hp⟩ := reach_of_run CVLock.step (fun _ a => !a.isSpurious) (.start 2 2)
      (barging ++ bargingEnd)
      (fun s => decide (s.Finished 2 ∧ s.x = 3)) (by decide +kernel)
    exact ⟨s, hs, of_decide_eq_true hp⟩
  · obtain ⟨s, hs, hp⟩ := reach_of_run CVLock.step (fun _ _ => true) (.start 2 1) spuriousWake
      (fun s => (s.threads 0).critical && (s.threads 1).critical) (by decide +kernel)
    exact ⟨s, hs.reach, hboth s hp⟩
  · obtain ⟨s, hs, hp⟩ := reach_of_run CVLock.step (fun _ _ => true) (.start 2 1)
      (spuriousWake ++ spuriousWakeEnd)
      (fun s => decide (s.Finished 2 ∧ s.x = 1)) (by decide +kernel)
    exact ⟨s, hs.reach, of_decide_eq_true hp⟩

end HseMultithreading.Sync
