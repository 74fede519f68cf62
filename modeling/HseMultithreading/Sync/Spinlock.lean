/-
  File:      HseMultithreading/Sync/Spinlock.lean
  Subject:   `Spinlock` (`mutex/spinlock.cpp`): a lock made of one atomic flag, and the loop of
             increments it guards.

  A thread that spins stores `true` into the flag over and over while another one works, so the
  flag does not say who holds the lock. The proof gives it an owner (`SpinInv`): the flag is set
  exactly while there is one.

  * `Spinlock`, `Spinlock.step` -- any number of threads that run the loop: every `exchange`, the
    read and the write of `x`, and the store of `unlock` are steps.
  * **`spinlock_exclusive`** -- at most one thread is between its successful `exchange` and its
    store, the flag is set exactly when one is, and a completed run leaves the initial value plus
    the number of all iterations in `x`. On the way `x` stays between these two, so no `++x`
    overflows while the last value is an `int`.
-/
import HseMultithreading.Lib.Run
import HseMultithreading.Lib.Token

namespace HseMultithreading.Sync

open StepSystem TokenRule

/-! ## 1. The machine -/

/-- What a thread does NEXT. -/
inductive SpinPc where
  | idle
  | exchange
  | read
  | write (v : ℤ)
  | unlock
  deriving DecidableEq

/-- `m_locked`, where each thread stands and how many iterations it has left, and the guarded
    variable. -/
structure Spinlock where
  locked : Bool
  threads : ℕ → SpinPc
  left : ℕ → ℕ
  x : ℤ

/-- `n` threads, of which thread `t` makes `k t` iterations. -/
def Spinlock.start (n : ℕ) (k : ℕ → ℕ) (x₀ : ℤ) : Spinlock :=
  ⟨false, fun _ => .idle, fun t => if t < n then k t else 0, x₀⟩

def Spinlock.goto (s : Spinlock) (t : ℕ) (pc : SpinPc) : Spinlock :=
  { s with threads := Function.update s.threads t pc }

/-- The next step of thread `t`. An `exchange` that finds `true` stores `true` again and is
    repeated. -/
def Spinlock.advance (s : Spinlock) (t : ℕ) : SpinPc → Option Spinlock
  | .idle => if s.left t = 0 then none else some (s.goto t .exchange)
  | .exchange =>
    some ({ s with locked := true }.goto t (if s.locked then .exchange else .read))
  | .read => some (s.goto t (.write s.x))
  | .write v => some ({ s with x := v + 1 }.goto t .unlock)
  | .unlock =>
    some ({ s with locked := false, left := Function.update s.left t (s.left t - 1) }.goto t .idle)

/-- Any thread makes the next step. -/
def Spinlock.step (s : Spinlock) (t : ℕ) : Option Spinlock := s.advance t (s.threads t)

/-- The thread is between its successful `exchange` and its store. -/
def SpinPc.inside : SpinPc → Bool
  | .read | .write _ | .unlock => true
  | .idle | .exchange => false

/-- The `n` threads have run their loops to the end. -/
def Spinlock.Finished (n : ℕ) (s : Spinlock) : Prop := ∀ t < n, s.threads t = .idle ∧ s.left t = 0

instance Spinlock.decidableFinished (n : ℕ) (s : Spinlock) : Decidable (s.Finished n) :=
  Nat.decidableBallLT n fun t _ => s.threads t = .idle ∧ s.left t = 0

/-! ## 2. The owner -/

/-- The increments a thread still has to make. -/
def Spinlock.due (s : Spinlock) (t : ℕ) : ℕ :=
  if s.threads t = .unlock then s.left t - 1 else s.left t

/-- **The invariant**: the lock is a token with owner `o`, `m_locked` says whether there is one, and
    `paid` increments have been made. -/
structure SpinInv (n : ℕ) (k : ℕ → ℕ) (x₀ : ℤ) (s : Spinlock) (o : Option ℕ) (paid : ℕ) : Prop where
  owner : Token SpinPc.inside s.threads o
  locked : s.locked = o.isSome
  writing : ∀ t v, s.threads t = .write v → v = s.x
  active : ∀ t, s.threads t ≠ .idle → s.left t ≠ 0
  few : ∀ t, s.left t ≠ 0 → t < n
  counted : Counted s.due (Finset.range n) paid (∑ t ∈ Finset.range n, k t)
  sum : s.x = x₀ + paid

theorem spinInv_start (n : ℕ) (k : ℕ → ℕ) (x₀ : ℤ) : SpinInv n k x₀ (.start n k x₀) none 0 where
  owner _ := ⟨nofun, nofun⟩
  locked := rfl
  writing _ _ h := nomatch h
  active _ h := absurd rfl h
  few t h := Classical.byContradiction fun ht => h (if_neg ht)
  counted := by
    have hdue : ∀ t ∈ Finset.range n, (Spinlock.start n k x₀).due t = k t :=
      fun t ht => if_pos (Finset.mem_range.mp ht)
    show 0 + ∑ t ∈ Finset.range n, (Spinlock.start n k x₀).due t = _
    rw [Finset.sum_congr rfl hdue, Nat.zero_add]
  sum := (Int.add_zero x₀).symm

section Steps

variable {n : ℕ} {k : ℕ → ℕ} {x₀ : ℤ} {s s' : Spinlock} {o o' : Option ℕ} {paid paid' t : ℕ}

/-- **A step of thread `t` to place `new`**: what it does to the token, and what is left to say
    about `t` itself. -/
theorem SpinInv.move (h : SpinInv n k x₀ s o paid) (new : SpinPc)
    (hthr : s'.threads = Function.update s.threads t new)
    (ho : Pass SpinPc.inside t (s.threads t) new o o') (hlocked : s'.locked = o'.isSome)
    (hwrite : ∀ t' v, s'.threads t' = .write v → v = s'.x)
    (hactive : new ≠ .idle → s'.left t ≠ 0) (hleft : ∀ t', t' ≠ t → s'.left t' = s.left t')
    (hless : s'.left t ≤ s.left t)
    (hcount : Counted s'.due (Finset.range n) paid' (∑ t ∈ Finset.range n, k t))
    (hsum : s'.x = x₀ + paid') : SpinInv n k x₀ s' o' paid' where
  owner := by rw [hthr]; exact h.owner.pass ho
  locked := hlocked
  writing := hwrite
  active := active_update hleft h.active hthr hactive
  few := left_of_step hleft h.few hless
  counted := hcount
  sum := hsum

theorem SpinInv.writing_update (h : SpinInv n k x₀ s o paid) {new : SpinPc}
    (hnew : ∀ v, new = .write v → v = s.x) :
    ∀ t' v, Function.update s.threads t new t' = .write v → v = s.x := by
  rw [Function.forall_update_iff s.threads fun _ pc => ∀ v, pc = .write v → v = s.x]
  exact ⟨hnew, fun t' _ => h.writing t'⟩

/-- What is due from the other threads does not change. -/
theorem Spinlock.due_of_ne {new : SpinPc} (hthr : s'.threads = Function.update s.threads t new)
    (hleft : ∀ t', t' ≠ t → s'.left t' = s.left t') (t' : ℕ) (e : t' ≠ t) :
    s'.due t' = s.due t' := by
  unfold Spinlock.due
  rw [hthr, Function.update_of_ne e, hleft t' e]

/-- Thread `t` moves on and makes no increment. -/
theorem SpinInv.glide (h : SpinInv n k x₀ s o paid) {pc : SpinPc} (hpc : s.threads t = pc)
    (new : SpinPc) {locked : Bool} (ho : Pass SpinPc.inside t pc new o o')
    (hlocked : locked = o'.isSome) (hwrite : ∀ v, new = .write v → v = s.x)
    (hold : pc ≠ .unlock) (hnew : new ≠ .unlock) (hactive : s.left t ≠ 0) :
    SpinInv n k x₀ ({ s with locked := locked }.goto t new) o' paid := by
  subst hpc
  refine h.move new rfl ho hlocked (h.writing_update hwrite) (fun _ => hactive) (fun _ _ => rfl)
    (Nat.le_refl _) (h.counted.stay (Spinlock.due_of_ne rfl fun _ _ => rfl) ?_) h.sum
  simp only [Spinlock.goto, Spinlock.due, Function.update_self, if_neg hold, if_neg hnew]

/-- The increment: nobody else stands between the read and the write. -/
theorem SpinInv.increment (h : SpinInv n k x₀ s o paid) {v : ℤ} (hpc : s.threads t = .write v) :
    SpinInv n k x₀ ({ s with x := v + 1 }.goto t .unlock) o (paid + 1) := by
  have hv : v = s.x := h.writing t v hpc
  have hleft : s.left t ≠ 0 := h.active t (by rw [hpc]; nofun)
  refine h.move .unlock rfl (.keep o (by rw [hpc]; rfl)) h.locked (fun t' v' ht' => ?_)
    (fun _ => hleft) (fun _ _ => rfl) (Nat.le_refl _) ?_ ?_
  · by_cases e : t' = t
    · simp only [Spinlock.goto, e, Function.update_self, reduceCtorEq] at ht'
    · simp only [Spinlock.goto, Function.update_of_ne e] at ht'
      have hown : SpinPc.inside (s.threads t') = true := by rw [ht']; rfl
      exact absurd (h.owner.unique hown (by rw [hpc]; rfl)) e
  · refine h.counted.pay (Finset.mem_range.mpr (h.few t hleft))
      (Spinlock.due_of_ne rfl fun _ _ => rfl) ?_
    have hbefore : s.due t = s.left t := by
      unfold Spinlock.due
      rw [hpc, if_neg nofun]
    have hafter : ({ s with x := v + 1 }.goto t .unlock).due t = s.left t - 1 := by
      simp only [Spinlock.goto, Spinlock.due, Function.update_self, if_true]
    omega
  · have hsum := h.sum
    show v + 1 = x₀ + ((paid + 1 : ℕ) : ℤ)
    omega

/-- The store of `unlock` ends the iteration and gives the token back. -/
theorem SpinInv.unlocked (h : SpinInv n k x₀ s (some t) paid) (hpc : s.threads t = .unlock) :
    SpinInv n k x₀ ({ s with
      locked := false
      left := Function.update s.left t (s.left t - 1) }.goto t .idle) none paid := by
  have hless : Function.update s.left t (s.left t - 1) t ≤ s.left t := by
    rw [Function.update_self]
    exact Nat.sub_le _ _
  have hothers : ∀ t', t' ≠ t → Function.update s.left t (s.left t - 1) t' = s.left t' :=
    fun t' e => Function.update_of_ne e _ _
  refine h.move .idle rfl (.drop rfl) rfl (h.writing_update nofun) (fun e => absurd rfl e)
    hothers hless (h.counted.stay (Spinlock.due_of_ne rfl hothers) ?_) h.sum
  simp only [Spinlock.goto, Spinlock.due, Function.update_self, hpc, reduceCtorEq, if_true,
    if_false]

/-- **Every step keeps the invariant.** -/
theorem SpinInv.step (h : SpinInv n k x₀ s o paid) (hs : s.step t = some s') :
    ∃ o' paid', SpinInv n k x₀ s' o' paid' := by
  unfold Spinlock.step at hs
  cases hpc : s.threads t with
  | idle =>
      rw [hpc, Spinlock.advance] at hs
      split at hs
      · cases hs
      next hleft =>
        obtain rfl := Option.some.inj hs
        exact ⟨o, paid, h.glide hpc .exchange (.keep o rfl) h.locked nofun nofun nofun hleft⟩
  | exchange =>
      have hleft := h.active t (by rw [hpc]; nofun)
      rw [hpc] at hs
      obtain rfl := Option.some.inj hs
      cases hl : s.locked with
      | true =>
          -- The flag is stored again, by a thread that does not get the lock.
          exact ⟨o, paid, h.glide hpc .exchange (.keep o rfl) (hl.symm.trans h.locked) nofun nofun
            nofun hleft⟩
      | false =>
          obtain rfl : o = none :=
            Option.isSome_eq_false_iff.mp (h.locked.symm.trans hl) |> Option.isNone_iff_eq_none.mp
          exact ⟨some t, paid, h.glide hpc .read (.take rfl) rfl nofun nofun nofun hleft⟩
  | read =>
      rw [hpc] at hs
      obtain rfl := Option.some.inj hs
      exact ⟨o, paid, h.glide hpc (.write s.x) (.keep o rfl) h.locked
        (fun _ e => (SpinPc.write.inj e).symm) nofun nofun (h.active t (by rw [hpc]; nofun))⟩
  | write v =>
      rw [hpc] at hs
      obtain rfl := Option.some.inj hs
      exact ⟨o, paid + 1, h.increment hpc⟩
  | unlock =>
      rw [hpc] at hs
      obtain rfl := Option.some.inj hs
      obtain rfl : o = some t := (h.owner t).mp (by rw [hpc]; rfl)
      exact ⟨none, paid, h.unlocked hpc⟩

end Steps

/-! ## 3. Exclusion and the sum -/

/-- **At most one thread is inside, the flag is set exactly when one is, and no increment is lost**,
    for any number of threads with any numbers of iterations. -/
theorem spinlock_exclusive (n : ℕ) (k : ℕ → ℕ) (x₀ : ℤ) {s : Spinlock}
    (h : Reach Spinlock.step (.start n k x₀) s) :
    (∀ t t', (s.threads t).inside = true → (s.threads t').inside = true → t = t') ∧
      (s.locked = true ↔ ∃ t, (s.threads t).inside = true) ∧
      (x₀ ≤ s.x ∧ s.x ≤ x₀ + (∑ t ∈ Finset.range n, k t : ℕ)) ∧
      (s.Finished n → s.x = x₀ + (∑ t ∈ Finset.range n, k t : ℕ)) := by
  obtain ⟨o, paid, hi⟩ := h.invariant (I := fun s => ∃ o paid, SpinInv n k x₀ s o paid)
    ⟨none, 0, spinInv_start n k x₀⟩ fun _ _ _ ⟨_, _, hi⟩ _ hs => hi.step hs
  refine ⟨fun t t' ht ht' => hi.owner.unique ht ht', ?_, ?_, fun hfin => ?_⟩
  · rw [hi.locked, Option.isSome_iff_exists]
    exact exists_congr fun t => (hi.owner t).symm
  · have hle := hi.counted.le
    rw [hi.sum]
    omega
  · have hpaid := hi.counted.paid fun t ht => by
      obtain ⟨hidle, hleft⟩ := hfin t (Finset.mem_range.mp ht)
      unfold Spinlock.due
      rw [hidle, if_neg nofun]
      exact hleft
    rw [hi.sum, hpaid]

/-- Thread 1 spins while thread 0 is inside; thread 0 makes two iterations and thread 1 one. -/
def spinning : List ℕ := [0, 0, 1, 1, 0, 1, 0, 1, 0, 1, 0, 0, 1, 1, 1, 0, 0, 0, 0]

theorem spinlock_exclusive_spinning :
    ∃ s, Reach Spinlock.step (.start 2 (fun t => 2 - t) 5) s ∧ s.Finished 2 ∧
      s.x = 5 + (∑ t ∈ Finset.range 2, (2 - t) : ℕ) := by
  obtain ⟨s, hs, hp⟩ := reach_of_run Spinlock.step (fun _ _ => true) (.start 2 (fun t => 2 - t) 5)
    spinning (fun s => decide (s.Finished 2)) (by decide +kernel)
  have hfin : s.Finished 2 := of_decide_eq_true hp
  exact ⟨s, hs.reach, hfin, (spinlock_exclusive 2 (fun t => 2 - t) 5 hs.reach).2.2.2 hfin⟩

end HseMultithreading.Sync
