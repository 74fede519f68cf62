/-
  File:      HseMultithreading/Sync/Counting.lean
  Subject:   `n` threads that increment `x` `k` times each: the three programs
             `sync_intro/data_race.cpp` (a plain `int`), `atomics/data_race.cpp` (an atomic one) and
             `mutex/mutex.cpp` (a mutex around each increment).

  The programs are one loop with three ways to do `++x`. A plain `++x` is a load and a store, and
  another thread may store in between; the store then takes back what that thread has added.

  `x` is an `int` of 32 bits, kept as its pattern: below 2^31 that is its value. The atomic wraps
  around. A plain `++x` of the largest `int` is undefined; no thread makes it while `n * k < 2^31`,
  since `x` never exceeds the number of all increments.

  * `Counting`, `Counting.step` -- any number of threads in the loop of one of the programs.
  * `Increment.value` -- what `x` holds after that many increments none of which was lost.
  * **`guarded_sum`** -- with the atomic or the mutex every maximal run ends with all `n * k`
    increments in `x`, the atomic one modulo 2^32.
  * `RaceInv` -- what stays true of the plain loop: nobody stores more than was added, and only the
    first store of a thread can leave a 1 in `x`.
  * `racing` -- a schedule that loses exactly `p + q` increments.
  * **`data_race_exact`** -- two threads or more, with two iterations or more each, leave `y` in `x`
    in some run exactly for `2 ≤ y ≤ n * k`.
-/
import HseMultithreading.Lib.Amortized
import HseMultithreading.Lib.Token

namespace HseMultithreading.Sync

open StepSystem TokenRule

/-! ## 1. The machine -/

/-- How a program does `++x`. -/
inductive Increment where
  | plain
  | atomic
  | mutex
  deriving DecidableEq

/-- The result of `++x`: `std::atomic<int>` wraps around. -/
def Increment.succ : Increment → ℕ → ℕ
  | .atomic, x => (x + 1) % 2 ^ 32
  | .plain, x | .mutex, x => x + 1

/-- What a thread does NEXT. -/
inductive CountPc where
  | idle
  | read
  | write (v : ℕ)
  | unlock
  deriving DecidableEq

/-- `x`, the owner of `mtx`, where each thread stands and how many iterations it has left. -/
structure Counting where
  x : ℕ
  mtx : Option ℕ
  threads : ℕ → CountPc
  left : ℕ → ℕ

/-- `n` threads with `k` iterations each. -/
def Counting.start (n k : ℕ) : Counting :=
  ⟨0, none, fun _ => .idle, fun t => if t < n then k else 0⟩

def Counting.goto (s : Counting) (t : ℕ) (pc : CountPc) : Counting :=
  { s with threads := Function.update s.threads t pc }

/-- Thread `t` ends an iteration. -/
def Counting.iterate (s : Counting) (t : ℕ) : Counting :=
  { s with left := Function.update s.left t (s.left t - 1) }.goto t .idle

/-- The next step of thread `t`. A plain increment begins with its load, an atomic one is a single
    step, and the mutex is locked before and unlocked after. -/
def Counting.advance (i : Increment) (s : Counting) (t : ℕ) : CountPc → Option Counting
  | .idle =>
    if s.left t = 0 then none
    else
      match i with
      | .plain => some (s.goto t (.write s.x))
      | .atomic => some ({ s with x := i.succ s.x }.iterate t)
      | .mutex =>
        match s.mtx with
        | none => some ({ s with mtx := some t }.goto t .read)
        | some _ => none
  | .read => some (s.goto t (.write s.x))
  | .write v =>
    match i with
    | .mutex => some ({ s with x := i.succ v }.goto t .unlock)
    | _ => some ({ s with x := i.succ v }.iterate t)
  | .unlock => some ({ s with mtx := none }.iterate t)

def Counting.step (i : Increment) (s : Counting) (t : ℕ) : Option Counting :=
  s.advance i t (s.threads t)

/-- The `n` threads have run their loops to the end. -/
def Counting.Finished (n : ℕ) (s : Counting) : Prop := ∀ t < n, s.threads t = .idle ∧ s.left t = 0

/-! ## 2. With the atomic or the mutex -/

/-- What `x` holds after `c` increments. -/
def Increment.value : Increment → ℕ → ℕ
  | .atomic, c => c % 2 ^ 32
  | .plain, c | .mutex, c => c

theorem Increment.succ_value (i : Increment) (c : ℕ) : i.succ (i.value c) = i.value (c + 1) := by
  cases i with
  | atomic => exact Nat.mod_add_mod c (2 ^ 32) 1
  | plain | mutex => rfl

/-- The thread owns `mtx`. -/
def CountPc.inMtx : CountPc → Bool
  | .idle => false
  | _ => true

/-- The increments a thread still has to make. -/
def Counting.due (s : Counting) (t : ℕ) : ℕ :=
  if s.threads t = .unlock then s.left t - 1 else s.left t

def CountPc.rank : CountPc → ℕ
  | .idle => 0
  | .read => 1
  | .write _ => 2
  | .unlock => 3

/-- The steps thread `t` still takes, at most. -/
def Counting.cost (s : Counting) (t : ℕ) : ℕ := 4 * s.left t - (s.threads t).rank

/-- The steps all threads still take, at most. -/
def Counting.total (n : ℕ) (s : Counting) : ℕ := ∑ t ∈ Finset.range n, s.cost t

/-- The increments made and those still to be made are `n * k`, and `x` holds those made. -/
def Counting.Tallied (i : Increment) (n k : ℕ) (s : Counting) : Prop :=
  ∃ c, Counted s.due (Finset.range n) c (n * k) ∧ s.x = i.value c

/-- **The invariant of the guarded loops.** -/
structure GuardedInv (i : Increment) (n k : ℕ) (s : Counting) : Prop where
  mutex : Token CountPc.inMtx s.threads s.mtx
  locking : ∀ t, s.threads t ≠ .idle → i = .mutex
  writing : ∀ t v, s.threads t = .write v → v = s.x
  active : ∀ t, s.threads t ≠ .idle → s.left t ≠ 0
  few : ∀ t, s.left t ≠ 0 → t < n
  tallied : s.Tallied i n k

theorem guardedInv_start (i : Increment) (n k : ℕ) : GuardedInv i n k (.start n k) where
  mutex _ := ⟨fun h => (by cases h), fun h => (by cases h)⟩
  locking _ h := absurd rfl h
  writing _ _ h := by cases h
  active _ h := absurd rfl h
  few t h := Classical.byContradiction fun ht => h (if_neg ht)
  tallied := by
    have hdue : ∀ t ∈ Finset.range n, (Counting.start n k).due t = k := fun t ht => by
      simp only [Counting.due, Counting.start, reduceCtorEq, if_false,
        if_pos (Finset.mem_range.mp ht)]
    refine ⟨0, ?_, by cases i <;> rfl⟩
    rw [Counted, Finset.sum_const_nat hdue, Finset.card_range, Nat.zero_add]

section Guarded

variable {i : Increment} {n k : ℕ} {s s' : Counting} {t : ℕ} {pc new : CountPc}

theorem Counting.due_of_ne (hthr : s'.threads = Function.update s.threads t new)
    (hleft : ∀ u, u ≠ t → s'.left u = s.left u) (u : ℕ) (e : u ≠ t) : s'.due u = s.due u := by
  unfold Counting.due
  rw [hthr, Function.update_of_ne e, hleft u e]

/-- **A step of thread `t`**, by what it does to the token, the counter and the iterations. -/
theorem GuardedInv.move (h : GuardedInv i n k s) (hpc : s.threads t = pc)
    (hthr : s'.threads = Function.update s.threads t new)
    (hm : Pass CountPc.inMtx t pc new s.mtx s'.mtx) (hlock : new ≠ .idle → i = .mutex)
    (hwrite : ∀ v, new = .write v → v = s'.x)
    (hx : s'.x = s.x ∨ ∀ u, u ≠ t → s.threads u = .idle)
    (hactive : new ≠ .idle → s'.left t ≠ 0) (hleft : ∀ u, u ≠ t → s'.left u = s.left u)
    (hless : s'.left t ≤ s.left t) (htally : s'.Tallied i n k) : GuardedInv i n k s' where
  mutex := by
    rw [hthr]
    exact h.mutex.pass (hpc.symm ▸ hm)
  locking := by
    rw [hthr, Function.forall_update_iff s.threads fun _ pc => pc ≠ .idle → i = .mutex]
    exact ⟨hlock, fun u _ => h.locking u⟩
  writing := by
    rw [hthr, Function.forall_update_iff s.threads fun _ pc => ∀ v, pc = .write v → v = s'.x]
    refine ⟨hwrite, fun u hu v hv => ?_⟩
    rcases hx with hx | hidle
    · rw [hx]
      exact h.writing u v hv
    · rw [hidle u hu] at hv
      cases hv
  active := active_update hleft h.active hthr hactive
  few := left_of_step hleft h.few hless
  tallied := htally

/-- The thread that is inside is alone. -/
theorem GuardedInv.alone (h : GuardedInv i n k s) (ht : s.threads t ≠ .idle) :
    ∀ u, u ≠ t → s.threads u = .idle := by
  have hin : ∀ pc : CountPc, pc ≠ .idle → pc.inMtx = true := fun pc hne => by
    cases pc with
    | idle => exact absurd rfl hne
    | read | write | unlock => rfl
  intro u hu
  by_contra hne
  exact hu (h.mutex.unique (hin _ hne) (hin _ ht))

/-- The counter gains one, and thread `t` owes one less. -/
theorem GuardedInv.pay (h : GuardedInv i n k s) (hlt : t < n)
    (hthr : s'.threads = Function.update s.threads t new)
    (hleft : ∀ u, u ≠ t → s'.left u = s.left u) (hx : s'.x = i.succ s.x)
    (hdue : s.due t = s'.due t + 1) : s'.Tallied i n k := by
  obtain ⟨c, hc, hval⟩ := h.tallied
  refine ⟨c + 1, hc.pay (Finset.mem_range.mpr hlt) (Counting.due_of_ne hthr hleft) hdue, ?_⟩
  rw [hx, hval, i.succ_value]

theorem GuardedInv.stay (h : GuardedInv i n k s)
    (hthr : s'.threads = Function.update s.threads t new)
    (hleft : ∀ u, u ≠ t → s'.left u = s.left u) (hx : s'.x = s.x) (hdue : s'.due t = s.due t) :
    s'.Tallied i n k := by
  obtain ⟨c, hc, hval⟩ := h.tallied
  exact ⟨c, hc.stay (Counting.due_of_ne hthr hleft) hdue, hx.trans hval⟩

theorem Counting.cost_lt (ht : t < n) (hthr : s'.threads = Function.update s.threads t new)
    (hleft : ∀ u, u ≠ t → s'.left u = s.left u)
    (hless : 4 * s'.left t - new.rank < 4 * s.left t - (s.threads t).rank) :
    s'.total n < s.total n := by
  refine Amortized.sum_pay (d := 0) (c := 0) (Finset.mem_range.mpr ht) (fun u _ e => ?_) ?_
  · unfold Counting.cost
    rw [hthr, Function.update_of_ne e, hleft u e]
    exact Nat.le_refl _
  · unfold Counting.cost
    rw [hthr, Function.update_self]
    omega

/-- The end of an iteration: `left` is updated at `t` only. -/
theorem iterate_left (s : Counting) (t : ℕ) :
    (∀ u, u ≠ t → (s.iterate t).left u = s.left u) ∧ (s.iterate t).left t = s.left t - 1 :=
  ⟨fun _ e => Function.update_of_ne e _ _, Function.update_self _ _ _⟩

theorem iterate_due (s : Counting) (t : ℕ) : (s.iterate t).due t = s.left t - 1 := by
  simp only [Counting.due, Counting.iterate, Counting.goto, Function.update_self, reduceCtorEq,
    if_false]

/-- The atomic `++x` ends an iteration in one step. -/
theorem GuardedInv.atomic_increment (h : GuardedInv .atomic n k s) (hpc : s.threads t = .idle)
    (hne : s.left t ≠ 0) :
    let s' := { s with x := Increment.atomic.succ s.x }.iterate t
    GuardedInv .atomic n k s' ∧ s'.total n < s.total n := by
  intro s'
  obtain ⟨hothers, hself⟩ := iterate_left { s with x := Increment.atomic.succ s.x } t
  have hidle : ∀ u, u ≠ t → s.threads u = .idle := fun u _ => by
    by_contra hu
    cases h.locking u hu
  have hdue : s.due t = s'.due t + 1 := by
    rw [iterate_due]
    simp only [Counting.due, hpc, reduceCtorEq, if_false]
    omega
  refine ⟨h.move hpc rfl (.keep s.mtx rfl) (fun e => absurd rfl e) (fun v e => by cases e)
    (.inr hidle) (fun e => absurd rfl e) hothers (by rw [hself]; exact Nat.sub_le _ _)
    (h.pay (h.few t hne) rfl hothers rfl hdue), Counting.cost_lt (h.few t hne) rfl hothers ?_⟩
  rw [hself, hpc]
  simp only [CountPc.rank]
  omega

/-- A thread locks `mtx` at the start of an iteration. -/
theorem GuardedInv.lock (h : GuardedInv .mutex n k s) (hpc : s.threads t = .idle)
    (hne : s.left t ≠ 0) (hm : s.mtx = none) :
    let s' := { s with mtx := some t }.goto t .read
    GuardedInv .mutex n k s' ∧ s'.total n < s.total n := by
  intro s'
  have hpass : Pass CountPc.inMtx t .idle .read s.mtx s'.mtx := by
    rw [hm]
    exact .take rfl
  have hdue : s'.due t = s.due t := by
    simp only [s', Counting.due, Counting.goto, Function.update_self, hpc, reduceCtorEq, if_false]
  refine ⟨h.move hpc rfl hpass (fun _ => rfl) (fun v e => by cases e) (.inl rfl) (fun _ => hne)
    (fun _ _ => rfl) (Nat.le_refl _) (h.stay rfl (fun _ _ => rfl) rfl hdue),
    Counting.cost_lt (h.few t hne) rfl (fun _ _ => rfl) ?_⟩
  rw [hpc]
  simp only [s', Counting.goto, CountPc.rank]
  omega

/-- The owner of `mtx` loads `x`. -/
theorem GuardedInv.load (h : GuardedInv i n k s) (hpc : s.threads t = .read) :
    let s' := s.goto t (.write s.x)
    GuardedInv i n k s' ∧ s'.total n < s.total n := by
  intro s'
  have hin : s.threads t ≠ .idle := by simp [hpc]
  have hne := h.active t hin
  have hdue : s'.due t = s.due t := by
    simp only [s', Counting.due, Counting.goto, Function.update_self, hpc, reduceCtorEq, if_false]
  refine ⟨h.move hpc rfl (.keep s.mtx rfl) (fun _ => h.locking t hin)
    (fun v e => (CountPc.write.inj e).symm) (.inl rfl) (fun _ => hne) (fun _ _ => rfl)
    (Nat.le_refl _) (h.stay rfl (fun _ _ => rfl) rfl hdue),
    Counting.cost_lt (h.few t hne) rfl (fun _ _ => rfl) ?_⟩
  rw [hpc]
  simp only [s', Counting.goto, CountPc.rank]
  omega

/-- The owner of `mtx` stores what it has loaded and one; nobody has stored in between. -/
theorem GuardedInv.store (h : GuardedInv .mutex n k s) {v : ℕ} (hpc : s.threads t = .write v) :
    let s' := { s with x := Increment.mutex.succ v }.goto t .unlock
    GuardedInv .mutex n k s' ∧ s'.total n < s.total n := by
  intro s'
  have hin : s.threads t ≠ .idle := by simp [hpc]
  have hne := h.active t hin
  have hx : s'.x = Increment.mutex.succ s.x := by rw [← h.writing t v hpc]; rfl
  have hdue : s.due t = s'.due t + 1 := by
    simp only [s', Counting.due, Counting.goto, Function.update_self, hpc, reduceCtorEq, if_false,
      if_true]
    omega
  refine ⟨h.move hpc rfl (.keep s.mtx rfl) (fun _ => rfl) (fun v e => by cases e)
    (.inr (h.alone hin)) (fun _ => hne) (fun _ _ => rfl) (Nat.le_refl _)
    (h.pay (h.few t hne) rfl (fun _ _ => rfl) hx hdue),
    Counting.cost_lt (h.few t hne) rfl (fun _ _ => rfl) ?_⟩
  rw [hpc]
  simp only [s', Counting.goto, CountPc.rank]
  omega

/-- The owner unlocks `mtx` and ends its iteration. -/
theorem GuardedInv.unlock (h : GuardedInv i n k s) (hpc : s.threads t = .unlock) :
    let s' := { s with mtx := none }.iterate t
    GuardedInv i n k s' ∧ s'.total n < s.total n := by
  intro s'
  have hne := h.active t (by simp [hpc])
  obtain ⟨hothers, hself⟩ := iterate_left { s with mtx := none } t
  have hpass : Pass CountPc.inMtx t .unlock .idle s.mtx s'.mtx := by
    rw [(h.mutex t).mp (by rw [hpc]; rfl)]
    exact .drop rfl
  have hdue : s'.due t = s.due t := by
    rw [iterate_due]
    simp only [Counting.due, hpc, if_true]
  refine ⟨h.move hpc rfl hpass (fun e => absurd rfl e) (fun v e => by cases e) (.inl rfl)
    (fun e => absurd rfl e) hothers (by rw [hself]; exact Nat.sub_le _ _)
    (h.stay rfl hothers rfl hdue), Counting.cost_lt (h.few t hne) rfl hothers ?_⟩
  rw [hself, hpc]
  simp only [CountPc.rank]
  omega

theorem GuardedInv.step (hi : i ≠ .plain) (h : GuardedInv i n k s) (hs : s.step i t = some s') :
    GuardedInv i n k s' ∧ s'.total n < s.total n := by
  unfold Counting.step at hs
  cases hpc : s.threads t with
  | idle =>
      rw [hpc] at hs
      simp only [Counting.advance] at hs
      split at hs
      · cases hs
      next hne =>
        cases i with
        | plain => exact absurd rfl hi
        | atomic =>
            obtain rfl := Option.some.inj hs
            exact h.atomic_increment hpc hne
        | mutex =>
            simp only at hs
            cases hm : s.mtx with
            | some u => rw [hm] at hs; cases hs
            | none =>
                rw [hm] at hs
                obtain rfl := Option.some.inj hs
                exact h.lock hpc hne hm
  | read =>
      rw [hpc] at hs
      obtain rfl := Option.some.inj hs
      exact h.load hpc
  | write v =>
      rw [hpc] at hs
      obtain rfl := h.locking t (by simp [hpc])
      obtain rfl := Option.some.inj hs
      exact h.store hpc
  | unlock =>
      rw [hpc] at hs
      obtain rfl := Option.some.inj hs
      exact h.unlock hpc

/-- Where no thread can move, all are done: the owner of `mtx` is never kept. -/
theorem GuardedInv.finished (hi : i ≠ .plain) (h : GuardedInv i n k s)
    (hstuck : Stuck (Counting.step i) s) : s.Finished n ∧ s.x = i.value (n * k) := by
  have hidle : ∀ t, s.threads t = .idle := fun t => by
    have ht := hstuck t
    unfold Counting.step at ht
    cases hpc : s.threads t with
    | idle => rfl
    | read | unlock => rw [hpc] at ht; cases ht
    | write v => rw [hpc] at ht; cases i <;> cases ht
  have hfree : s.mtx = none := by
    by_contra hm
    obtain ⟨t, ht⟩ := Option.ne_none_iff_exists'.mp hm
    have := (h.mutex t).mpr ht
    rw [hidle t] at this
    cases this
  have hdone : ∀ t, s.left t = 0 := fun t => by
    by_contra hne
    have ht := hstuck t
    simp only [Counting.step, hidle t, Counting.advance, if_neg hne] at ht
    cases i with
    | plain => exact hi rfl
    | atomic => cases ht
    | mutex => rw [hfree] at ht; cases ht
  obtain ⟨c, hc, hx⟩ := h.tallied
  have hall : c = n * k := hc.paid fun t _ => by
    simp only [Counting.due, hidle t, hdone t, reduceCtorEq, if_false]
  exact ⟨fun t _ => ⟨hidle t, hdone t⟩, by rw [hx, hall]⟩

theorem GuardedInv.reach (hi : i ≠ .plain) (h : Reach (Counting.step i) (.start n k) s) :
    GuardedInv i n k s :=
  h.invariant (guardedInv_start i n k) fun _ _ _ hI _ hs => (hI.step hi hs).1

end Guarded

/-- **With an atomic, or with a mutex around each increment, every maximal run ends with all
    increments in `x`**: for any number of threads and iterations in the atomic one, which wraps
    around; with the mutex as long as the sum is an `int`, and then no `++x` overflows. -/
theorem guarded_sum (n k : ℕ) :
    Halts (Counting.step .atomic) (.start n k) (fun s => s.Finished n ∧ s.x = n * k % 2 ^ 32) ∧
      (n * k < 2 ^ 31 →
        Halts (Counting.step .mutex) (.start n k) (fun s => s.Finished n ∧ s.x = n * k) ∧
          ∀ s, Reach (Counting.step .mutex) (.start n k) s → s.x < 2 ^ 31) := by
  have hhalts : ∀ i : Increment, i ≠ .plain →
      Halts (Counting.step i) (.start n k) (fun s => s.Finished n ∧ s.x = i.value (n * k)) :=
    fun i hi =>
      halts_of_measure (I := GuardedInv i n k) (Counting.total n) (fun _ _ _ h hs => h.step hi hs)
        (guardedInv_start i n k) fun _ h => h.finished hi
  refine ⟨hhalts .atomic (by decide), fun hsmall => ⟨hhalts .mutex (by decide), fun s hs => ?_⟩⟩
  obtain ⟨c, hc, hx⟩ := (GuardedInv.reach (by decide) hs).tallied
  calc s.x = c := hx
    _ ≤ n * k := hc.le
    _ < 2 ^ 31 := hsmall

/-- The programs of the source: two threads with 1000 increments each. -/
theorem guarded_sum_source :
    Halts (Counting.step .atomic) (.start 2 1000) (fun s => s.Finished 2 ∧ s.x = 2000) ∧
      Halts (Counting.step .mutex) (.start 2 1000) (fun s => s.Finished 2 ∧ s.x = 2000) :=
  ⟨(guarded_sum 2 1000).1, ((guarded_sum 2 1000).2 (by decide)).1⟩

/-! ## 3. The plain increment: bounds -/

/-- The increments made so far. -/
def Counting.made (n k : ℕ) (s : Counting) : ℕ := ∑ t ∈ Finset.range n, (k - s.left t)

/-- **The invariant of the race.** A thread that has stored before has seen a store, so its loads
    give 1 at least; `x = 1` is the first store of some thread. -/
structure RaceInv (n k : ℕ) (s : Counting) : Prop where
  place : ∀ t, s.threads t = .idle ∨ ∃ v, s.threads t = .write v
  active : ∀ t, s.threads t ≠ .idle → s.left t ≠ 0
  few : ∀ t, s.left t ≠ 0 → t < n
  most : ∀ t, s.left t ≤ k
  upper : s.x ≤ s.made n k
  loaded : ∀ t v, s.threads t = .write v → v ≤ s.made n k ∧ (s.left t < k → 1 ≤ v)
  stored : ∀ t < n, s.left t < k → 1 ≤ s.x
  first : s.x = 1 → ∃ t < n, s.left t + 1 = k

theorem raceInv_start (n k : ℕ) : RaceInv n k (.start n k) where
  place _ := .inl rfl
  active _ h := absurd rfl h
  few t h := Classical.byContradiction fun ht => h (if_neg ht)
  most t := by
    show (if t < n then k else 0) ≤ k
    split
    · exact Nat.le_refl k
    · exact Nat.zero_le k
  upper := Nat.zero_le _
  loaded _ _ h := by cases h
  stored t ht h := by
    simp only [Counting.start, if_pos ht] at h
    exact absurd h (Nat.lt_irrefl k)
  first h := by cases h

section Race

variable {n k : ℕ} {s s' : Counting} {t : ℕ}

theorem RaceInv.load (h : RaceInv n k s) (hne : s.left t ≠ 0) :
    RaceInv n k (s.goto t (.write s.x)) where
  place := (Function.forall_update_iff s.threads fun _ pc => pc = .idle ∨ ∃ v, pc = .write v).mpr
    ⟨.inr ⟨_, rfl⟩, fun u _ => h.place u⟩
  active := active_update (fun _ _ => rfl) h.active rfl fun _ => hne
  few := h.few
  most := h.most
  upper := h.upper
  loaded := by
    refine (Function.forall_update_iff s.threads fun u pc => ∀ v, pc = .write v →
      v ≤ s.made n k ∧ (s.left u < k → 1 ≤ v)).mpr ⟨fun v e => ?_, fun u _ => h.loaded u⟩
    obtain rfl := CountPc.write.inj e
    exact ⟨h.upper, h.stored t (h.few t hne)⟩
  stored := h.stored
  first := h.first

theorem RaceInv.made_iterate (h : RaceInv n k s) (hne : s.left t ≠ 0) (x : ℕ) :
    ({ s with x := x }.iterate t).made n k = s.made n k + 1 := by
  obtain ⟨hothers, hself⟩ := iterate_left { s with x := x } t
  refine Bag.sum_add_at (Finset.mem_range.mpr (h.few t hne)) (fun u e => by rw [hothers u e]) ?_
  have hmost := h.most t
  rw [hself]
  show k - (s.left t - 1) = k - s.left t + 1
  omega

theorem RaceInv.store (h : RaceInv n k s) {v : ℕ} (hpc : s.threads t = .write v) :
    RaceInv n k ({ s with x := v + 1 }.iterate t) := by
  have hne : s.left t ≠ 0 := h.active t (by rw [hpc]; simp)
  have hlt : t < n := h.few t hne
  have hmost := h.most t
  have hmade := h.made_iterate hne (v + 1)
  obtain ⟨hothers, hself⟩ := iterate_left { s with x := v + 1 } t
  obtain ⟨hv, hpos⟩ := h.loaded t v hpc
  have hself' : ({ s with x := v + 1 }.iterate t).left t = s.left t - 1 := hself
  refine ⟨?_, ?_, ?_, ?_, ?_, ?_, ?_, ?_⟩
  · exact (Function.forall_update_iff s.threads fun _ pc => pc = .idle ∨ ∃ v, pc = .write v).mpr
      ⟨.inl rfl, fun u _ => h.place u⟩
  · exact active_update hothers h.active rfl fun e => absurd rfl e
  · exact left_of_step hothers h.few (by rw [hself']; exact Nat.sub_le _ _)
  · intro u
    by_cases e : u = t
    · rw [e, hself']
      omega
    · rw [hothers u e]
      exact h.most u
  · rw [hmade]
    exact Nat.succ_le_succ hv
  · intro u w hw
    by_cases e : u = t
    · rw [e] at hw
      simp only [Counting.iterate, Counting.goto, Function.update_self, reduceCtorEq] at hw
    · rw [hmade, hothers u e]
      simp only [Counting.iterate, Counting.goto, Function.update_of_ne e] at hw
      obtain ⟨hle, hone⟩ := h.loaded u w hw
      exact ⟨Nat.le_succ_of_le hle, hone⟩
  · exact fun u _ _ => Nat.succ_le_succ (Nat.zero_le v)
  · intro hx
    -- The value loaded was 0, so this was the first store of `t`.
    have hv0 : v = 0 := Nat.succ.inj hx
    refine ⟨t, hlt, ?_⟩
    rw [hself']
    have hfull : ¬ s.left t < k := fun hl => by
      have := hpos hl
      omega
    omega

theorem RaceInv.step (h : RaceInv n k s) (hs : s.step .plain t = some s') : RaceInv n k s' := by
  unfold Counting.step at hs
  rcases h.place t with hpc | ⟨v, hpc⟩
  · rw [hpc] at hs
    simp only [Counting.advance] at hs
    split at hs
    · cases hs
    next hne =>
      obtain rfl := Option.some.inj hs
      exact h.load hne
  · rw [hpc] at hs
    obtain rfl := Option.some.inj hs
    exact h.store hpc

theorem RaceInv.reach (h : Reach (Counting.step .plain) (.start n k) s) : RaceInv n k s :=
  h.invariant (raceInv_start n k) fun _ _ _ hI _ hs => hI.step hs

theorem made_le (s : Counting) : s.made n k ≤ n * k := by
  calc s.made n k ≤ ∑ _t ∈ Finset.range n, k := Finset.sum_le_sum fun t _ => Nat.sub_le _ _
    _ = n * k := by rw [Finset.sum_const_nat fun _ _ => rfl, Finset.card_range]

/-- The sum at the end. -/
theorem RaceInv.range (h : RaceInv n k s) (hn : 0 < n) (hk : 2 ≤ k) (hfin : s.Finished n) :
    2 ≤ s.x ∧ s.x ≤ n * k := by
  have hleft : ∀ t < n, s.left t = 0 := fun t ht => (hfin t ht).2
  constructor
  · have hpos := h.stored 0 hn (by rw [hleft 0 hn]; omega)
    have hone : s.x ≠ 1 := fun hx => by
      obtain ⟨t, ht, hk1⟩ := h.first hx
      rw [hleft t ht] at hk1
      omega
    omega
  · have hmade : s.made n k = n * k := by
      unfold Counting.made
      rw [Finset.sum_const_nat fun t ht => by rw [hleft t (Finset.mem_range.mp ht), Nat.sub_zero],
        Finset.card_range]
    rw [← hmade]
    exact h.upper

/-! ## 4. The plain increment: every sum -/

/-- The threads of `l` make one whole increment each, one after the other. -/
def wholes (l : List ℕ) : List ℕ := l.flatMap fun t => [t, t]

theorem load_step (hpc : s.threads t = .idle) (hne : s.left t ≠ 0) :
    s.step .plain t = some (s.goto t (.write s.x)) := by
  simp only [Counting.step, hpc, Counting.advance, if_neg hne]

theorem store_step {v : ℕ} (hpc : s.threads t = .write v) :
    s.step .plain t = some ({ s with x := v + 1 }.iterate t) := by
  simp only [Counting.step, hpc, Counting.advance, Increment.succ]

/-- **Whole increments add up**, whatever the threads that are not part of it have loaded. -/
theorem run_wholes (l : List ℕ) : ∀ {s : Counting}, (∀ t ∈ l, s.threads t = .idle) →
    (∀ t, l.count t ≤ s.left t) →
    run (Counting.step .plain) s (wholes l) =
      some { s with x := s.x + l.length, left := fun t => s.left t - l.count t } := by
  induction l with
  | nil => exact fun _ _ => rfl
  | cons t l ih =>
      intro s hidle hleft
      have ht : s.threads t = .idle := hidle t List.mem_cons_self
      have hne : s.left t ≠ 0 := by
        have := hleft t
        rw [List.count_cons_self] at this
        omega
      have hback : ({ s.goto t (.write s.x) with x := s.x + 1 }.iterate t) =
          { s with x := s.x + 1, left := Function.update s.left t (s.left t - 1) } := by
        simp only [Counting.iterate, Counting.goto, Function.update_idem]
        rw [← ht, Function.update_eq_self]
      have htwo : run (Counting.step .plain) s [t, t] =
          some { s with x := s.x + 1, left := Function.update s.left t (s.left t - 1) } := by
        simp only [run, load_step ht hne, Option.bind_some]
        rw [store_step (v := s.x) (by simp only [Counting.goto, Function.update_self]), hback]
        rfl
      have hcount : ∀ u, l.count u ≤ Function.update s.left t (s.left t - 1) u := fun u => by
        have := hleft u
        by_cases e : u = t
        · rw [e, Function.update_self]
          rw [e, List.count_cons_self] at this
          omega
        · rw [Function.update_of_ne e]
          rw [List.count_cons_of_ne (Ne.symm e)] at this
          exact this
      show run (Counting.step .plain) s ([t, t] ++ wholes l) = _
      rw [run_append, htwo, Option.bind_some,
        ih (s := { s with x := s.x + 1, left := Function.update s.left t (s.left t - 1) })
          (fun u hu => hidle u (List.mem_cons_of_mem t hu)) hcount]
      simp only [Option.some.injEq, Counting.mk.injEq, List.length_cons, true_and]
      refine ⟨by omega, funext fun u => ?_⟩
      by_cases e : u = t
      · rw [e, Function.update_self, List.count_cons_self]
        omega
      · rw [Function.update_of_ne e, List.count_cons_of_ne (Ne.symm e)]

/-- The iterations of the threads `2, …, m + 1`. -/
def bystanders (k : ℕ) : ℕ → List ℕ
  | 0 => []
  | m + 1 => bystanders k m ++ List.replicate k (m + 2)

theorem length_bystanders (k m : ℕ) : (bystanders k m).length = m * k := by
  induction m with
  | zero => rw [bystanders, List.length_nil, Nat.zero_mul]
  | succ m ih => rw [bystanders, List.length_append, ih, List.length_replicate, Nat.succ_mul]

theorem count_bystanders (k m t : ℕ) :
    (bystanders k m).count t = if 2 ≤ t ∧ t < m + 2 then k else 0 := by
  induction m with
  | zero =>
      rw [bystanders, List.count_nil, if_neg (by omega)]
  | succ m ih =>
      rw [bystanders, List.count_append, ih, List.count_replicate]
      by_cases e : m + 2 = t
      · rw [if_neg (show ¬ (2 ≤ t ∧ t < m + 2) by omega), if_pos (beq_iff_eq.mpr e),
          if_pos (by omega), Nat.zero_add]
      · rw [if_neg (show ¬ (m + 2 == t) = true from fun h => e (beq_iff_eq.mp h)), Nat.add_zero]
        exact if_congr (by omega) rfl rfl

/-- What is left to do once thread 0 has stored and thread 1 is in its last iteration. -/
def rest (k m : ℕ) : List ℕ := List.replicate (k - 1) 0 ++ bystanders k m

/-- **A schedule that loses `p + q` increments**: thread 0 loads, thread 1 makes `p` increments, and
    the store of thread 0 takes them back; the last load of thread 1 comes before `q` increments of
    the others, and its store takes those back. -/
def racing (k m p q : ℕ) : List ℕ :=
  [0] ++ wholes (List.replicate p 1) ++ [0] ++ wholes (List.replicate (k - 1 - p) 1) ++ [1] ++
    wholes ((rest k m).take q) ++ [1] ++ wholes ((rest k m).drop q)

theorem count_rest (k m t : ℕ) :
    (rest k m).count t = (if t = 0 then k - 1 else 0) + if 2 ≤ t ∧ t < m + 2 then k else 0 := by
  rw [rest, List.count_append, List.count_replicate, count_bystanders]
  congr 1
  exact if_congr (by rw [beq_iff_eq]; exact eq_comm) rfl rfl

theorem length_rest (k m : ℕ) : (rest k m).length = k - 1 + m * k := by
  rw [rest, List.length_append, List.length_replicate, length_bystanders]

theorem run_then {as bs : List ℕ} {s₁ s₂ : Counting}
    (h : run (Counting.step .plain) s as = some s₁)
    (h' : run (Counting.step .plain) s₁ bs = some s₂) :
    run (Counting.step .plain) s (as ++ bs) = some s₂ := by
  rw [run_append, h]
  exact h'

theorem exists_load (hpc : s.threads t = .idle) (hne : s.left t ≠ 0) :
    ∃ s', run (Counting.step .plain) s [t] = some s' ∧ s'.x = s.x ∧
      s'.threads = Function.update s.threads t (.write s.x) ∧ ∀ u, s'.left u = s.left u :=
  ⟨s.goto t (.write s.x), by rw [run, load_step hpc hne]; rfl, rfl, rfl, fun _ => rfl⟩

theorem exists_store {v : ℕ} (hpc : s.threads t = .write v) :
    ∃ s', run (Counting.step .plain) s [t] = some s' ∧ s'.x = v + 1 ∧
      s'.threads = Function.update s.threads t .idle ∧
      ∀ u, s'.left u = if u = t then s.left t - 1 else s.left u :=
  ⟨{ s with x := v + 1 }.iterate t, by rw [run, store_step hpc]; rfl, rfl, rfl, fun u =>
    Function.update_apply s.left t _ u⟩

theorem exists_wholes {l : List ℕ} (hidle : ∀ t ∈ l, s.threads t = .idle)
    (hleft : ∀ t, l.count t ≤ s.left t) :
    ∃ s', run (Counting.step .plain) s (wholes l) = some s' ∧ s'.x = s.x + l.length ∧
      s'.threads = s.threads ∧ ∀ t, s'.left t = s.left t - l.count t :=
  ⟨_, run_wholes l hidle hleft, rfl, rfl, fun _ => rfl⟩

/-- The store of thread 0 has taken back the `p` increments of thread 1, which is now in its last
    iteration. -/
theorem run_racing_first {k m p : ℕ} (hk : 2 ≤ k) (hp : p ≤ k - 1) :
    ∃ s, run (Counting.step .plain) (.start (m + 2) k) ([0] ++ wholes (List.replicate p 1) ++ [0] ++
        wholes (List.replicate (k - 1 - p) 1) ++ [1]) = some s ∧ s.x = k - p ∧
      s.threads = Function.update (fun _ => .idle) 1 (.write (k - p)) ∧
      ∀ t, s.left t = if t = 1 then 1 else (rest k m).count t := by
  obtain ⟨s₁, r₁, hx₁, ht₁, hl₁⟩ := exists_load (s := .start (m + 2) k) (t := 0) rfl
    (by simp only [Counting.start]; rw [if_pos (by omega)]; omega)
  have hidle₁ : ∀ t ∈ List.replicate p 1, s₁.threads t = .idle := fun t ht => by
    rw [List.eq_of_mem_replicate ht, ht₁]
    rfl
  obtain ⟨s₂, r₂, hx₂, ht₂, hl₂⟩ := exists_wholes hidle₁ fun t => by
    rw [hl₁, List.count_replicate]
    simp only [Counting.start, beq_iff_eq]
    split_ifs <;> omega
  obtain ⟨s₃, r₃, hx₃, ht₃, hl₃⟩ := exists_store (s := s₂) (t := 0) (v := 0)
    (by rw [ht₂, ht₁]; rfl)
  have hthr₃ : s₃.threads = fun _ => .idle := by
    rw [ht₃, ht₂, ht₁, Function.update_idem]
    exact Function.update_eq_self 0 _
  obtain ⟨s₄, r₄, hx₄, ht₄, hl₄⟩ := exists_wholes (s := s₃) (l := List.replicate (k - 1 - p) 1)
    (fun t _ => by rw [hthr₃]) fun t => by
      simp only [hl₃, hl₂, hl₁, List.count_replicate, Counting.start, beq_iff_eq]
      split_ifs <;> omega
  have hleft₄ : ∀ t, s₄.left t = if t = 1 then 1 else (rest k m).count t := fun t => by
    simp only [hl₄, hl₃, hl₂, hl₁, count_rest, Counting.start, List.count_replicate, beq_iff_eq,
      one_ne_zero, if_false]
    split_ifs <;> omega
  obtain ⟨s₅, r₅, hx₅, ht₅, hl₅⟩ := exists_load (s := s₄) (t := 1) (by rw [ht₄, hthr₃])
    (by rw [hleft₄, if_pos rfl]; exact Nat.one_ne_zero)
  have hx : s₄.x = k - p := by
    rw [hx₄, hx₃, List.length_replicate]
    omega
  refine ⟨s₅, run_then (run_then (run_then (run_then r₁ r₂) r₃) r₄) r₅, hx₅.trans hx, ?_,
    fun t => (hl₅ t).trans (hleft₄ t)⟩
  rw [ht₅, ht₄, hthr₃, hx]

/-- The store of thread 1 takes back the `q` increments made since its load. -/
theorem run_racing {k m p q : ℕ} (hk : 2 ≤ k) (hp : p ≤ k - 1) (hq : q ≤ k - 1 + m * k) :
    ∃ s, run (Counting.step .plain) (.start (m + 2) k) (racing k m p q) = some s ∧
      s.Finished (m + 2) ∧ s.x + p + q = (m + 2) * k := by
  obtain ⟨s₁, r₁, hx₁, ht₁, hl₁⟩ := run_racing_first (m := m) hk hp
  have hone : ∀ t ∈ rest k m, t ≠ 1 := fun t ht e => by
    have hcount := List.count_pos_iff.mpr ht
    rw [e, count_rest] at hcount
    simp at hcount
  have htake : ∀ t, ((rest k m).take q).count t + ((rest k m).drop q).count t =
      (rest k m).count t := fun t => by
    rw [← List.count_append, List.take_append_drop]
  have hrest1 : (rest k m).count 1 = 0 := List.count_eq_zero.mpr fun h => hone 1 h rfl
  obtain ⟨s₂, r₂, hx₂, ht₂, hl₂⟩ := exists_wholes (s := s₁) (l := (rest k m).take q)
    (fun t ht => by
      rw [ht₁, Function.update_of_ne (hone t (List.mem_of_mem_take ht))])
    fun t => by
      have := htake t
      rw [hl₁]
      split
      next h => subst h; omega
      next => omega
  obtain ⟨s₃, r₃, hx₃, ht₃, hl₃⟩ := exists_store (s := s₂) (t := 1) (v := k - p)
    (by rw [ht₂, ht₁, Function.update_self])
  have hthr₃ : s₃.threads = fun _ => .idle := by
    rw [ht₃, ht₂, ht₁, Function.update_idem]
    exact Function.update_eq_self 1 _
  have hleft₃ : ∀ t, s₃.left t = ((rest k m).drop q).count t := fun t => by
    have := htake t
    by_cases e : t = 1
    · subst e
      rw [hl₃, if_pos rfl, hl₂, hl₁, if_pos rfl]
      omega
    · rw [hl₃, if_neg e, hl₂, hl₁, if_neg e]
      omega
  obtain ⟨s₄, r₄, hx₄, ht₄, hl₄⟩ := exists_wholes (s := s₃) (l := (rest k m).drop q)
    (fun t _ => by rw [hthr₃]) fun t => (hleft₃ t).ge
  refine ⟨s₄, run_then (run_then (run_then r₁ r₂) r₃) r₄, fun t _ => ?_, ?_⟩
  · rw [ht₄, hthr₃, hl₄, hleft₃]
    exact ⟨rfl, Nat.sub_self _⟩
  · rw [hx₄, hx₃, List.length_drop, length_rest, Nat.add_mul]
    omega

end Race

/-- **Two threads or more, with two plain increments or more each, leave exactly the sums from 2 to
    `n * k`**, and on the way `x` never exceeds the number of all increments. -/
theorem data_race_exact {n k : ℕ} (hn : 2 ≤ n) (hk : 2 ≤ k) (y : ℕ) :
    ((∃ s, Reach (Counting.step .plain) (.start n k) s ∧ s.Finished n ∧ s.x = y) ↔
      2 ≤ y ∧ y ≤ n * k) ∧
    ∀ s, Reach (Counting.step .plain) (.start n k) s → s.x ≤ n * k := by
  refine ⟨⟨?_, ?_⟩, fun s hs => (RaceInv.reach hs).upper.trans (made_le s)⟩
  · rintro ⟨s, hs, hfin, rfl⟩
    exact (RaceInv.reach hs).range (by omega) hk hfin
  · rintro ⟨h2, hle⟩
    obtain ⟨m, rfl⟩ := Nat.exists_eq_add_of_le' hn
    -- Of the increments to lose, as many as possible in the first window.
    have hmul : (m + 2) * k = m * k + 2 * k := Nat.add_mul m 2 k
    obtain ⟨s, hrun, hfin, hx⟩ := run_racing (m := m) (p := min ((m + 2) * k - y) (k - 1))
      (q := (m + 2) * k - y - min ((m + 2) * k - y) (k - 1)) hk (Nat.min_le_right _ _) (by omega)
    exact ⟨s, reach_run hrun, hfin, by omega⟩

/-- The program of the source: 2000 increments, and a sum of 2. -/
theorem data_race_exact_two :
    ∃ s, Reach (Counting.step .plain) (.start 2 1000) s ∧ s.Finished 2 ∧ s.x = 2 :=
  (data_race_exact (by decide) (by decide) 2).1.mpr ⟨by decide, by decide⟩

end HseMultithreading.Sync
