/-
  File:      HseMultithreading/Sync/Deadlock.lean
  Subject:   Two mutexes and threads that lock both (`mutex/deadlock.cpp`, `mutex/livelock.cpp`).

  The threads of the source are lambdas that construct a guard on each mutex and return; their
  destructors run in reverse order. The functions differ in the order of the two guards and in the
  timeout only, so they are instances of `LockOrder.Guards`. (`yield` changes nothing and is no
  step.)

  * `noDeadlock`, `deadlock` -- the order of the guards of each thread.
  * `Place` -- where such a thread can be.
  * **`noDeadlock_returns`** -- all threads in one order: every maximal run ends with all returned,
    for any number of threads.
  * **`deadlock_iff`** -- the two orders mixed, any number of threads: the program can still return
    from a state exactly when no two threads have crossed there.
  * **`livelock_outcomes`** -- the two orders with timeouts: every maximal run ends, and of the nine
    combinations of lines six are possible. A thread that fails on its first mutex has met a thread
    with both.
-/
import HseMultithreading.Lib.LockOrder

namespace HseMultithreading.Sync

open StepSystem LockOrder

/-! ## 1. The programs -/

inductive Mtx where
  | m1
  | m2
  deriving DecidableEq

/-- The order of the two guards. -/
inductive GuardOrder where
  | forward
  | backward
  deriving DecidableEq

def GuardOrder.first : GuardOrder → Mtx
  | .forward => .m1
  | .backward => .m2

def GuardOrder.second : GuardOrder → Mtx
  | .forward => .m2
  | .backward => .m1

def GuardOrder.program (o : GuardOrder) : List Mtx := [o.first, o.second]

/-- The two threads of the source. -/
inductive Thread where
  | thread1
  | thread2
  deriving DecidableEq

instance : Fintype Thread := ⟨{.thread1, .thread2}, fun t => by cases t <;> decide⟩

def Thread.other : Thread → Thread
  | .thread1 => .thread2
  | .thread2 => .thread1

/-- `NoDeadlock`, where all threads do the same. -/
def noDeadlock {ι : Type*} : ι → GuardOrder := fun _ => .forward

/-- `Deadlock`; the threads of `Livelock` take the mutexes in the same orders. -/
def deadlock : Thread → GuardOrder
  | .thread1 => .forward
  | .thread2 => .backward

/-- Threads with these orders, before their first lock. -/
def guarding {ι : Type*} (order : ι → GuardOrder) : Guards ι Mtx :=
  .start fun t => (order t).program

/-! ## 2. One order -/

def Mtx.rank : Mtx → ℕ
  | .m1 => 0
  | .m2 => 1

/-- **Threads that all take `m1` before `m2` always return**, however many they are. -/
theorem noDeadlock_returns {ι : Type*} [Fintype ι] [DecidableEq ι] :
    Halts (Guards.step false) (guarding (noDeadlock : ι → GuardOrder)) Guards.Finished :=
  halts_of_ordered Mtx.rank (fun _ => by simp [noDeadlock, GuardOrder.program, GuardOrder.first,
    GuardOrder.second, Mtx.rank]) false

/-! ## 3. Both orders -/

/-- **Where a thread can be** that locks `f` and then `g`. -/
inductive Place (f g : Mtx) : Holder Mtx → Prop where
  | begin : Place f g ⟨[f, g], [], none⟩
  | half : Place f g ⟨[g], [f], none⟩
  | both : Place f g ⟨[], [g, f], none⟩
  | leaving : Place f g ⟨[], [f], none⟩
  | done : Place f g ⟨[], [], none⟩
  | failedFirst : Place f g ⟨[], [], some f⟩
  | failedSecond : Place f g ⟨[], [f], some g⟩
  | gaveBack : Place f g ⟨[], [], some g⟩

/-- Every thread is at a place of its own order, and the mutexes have the owners they seem to. -/
structure Placed {ι : Type*} (order : ι → GuardOrder) (s : Guards ι Mtx) : Prop where
  owned : Owned s
  place : ∀ t, Place (order t).first (order t).second (s.tasks t)

section Steps

variable {ι : Type*} {order : ι → GuardOrder} {s s' : Guards ι Mtx} {t u : ι}

theorem placed_start : Placed order (guarding order) := ⟨owned_start _, fun _ => .begin⟩

/-- The mutex of a thread that holds it. -/
theorem Placed.owner (h : Placed order s) {m : Mtx} (hm : m ∈ (s.tasks t).held) :
    s.owner m = some t :=
  (h.owned.owner m t).mpr hm

variable [DecidableEq ι]

theorem place_moved {f g : Mtx} {k : Holder Mtx} (h : Place f g k) (hm : Moved s t k s') :
    Place f g (s'.tasks t) := by
  cases hm <;> simp only [Function.update_self] <;> cases h <;> constructor

theorem moved_of_ne {k : Holder Mtx} (hm : Moved s t k s') (hu : u ≠ t) :
    s'.tasks u = s.tasks u := by
  cases hm <;> exact Function.update_of_ne hu _ _

theorem Placed.step {timed : Bool} {a : Action ι} (h : Placed order s)
    (hs : s.step timed a = some s') : Placed order s' := by
  refine ⟨h.owned.step hs, fun u => ?_⟩
  have hm := step_moved hs
  by_cases e : u = a.thread
  · rw [e]
    exact place_moved (h.place _) hm
  · rw [moved_of_ne hm e]
    exact h.place u

theorem placed_reach {timed : Bool} {C : Guards ι Mtx → Action ι → Prop}
    (h : ReachWhere (Guards.step timed) C (guarding order) s) : Placed order s :=
  h.invariant (I := Placed order) placed_start fun _ _ _ hI _ hs => hI.step hs

/-- **Two threads have crossed**: one holds `m1` and is to lock `m2`, the other holds `m2` and is to
    lock `m1`. -/
def Crossed (s : Guards ι Mtx) : Prop :=
  ∃ t u, s.tasks t = ⟨[.m2], [.m1], none⟩ ∧ s.tasks u = ⟨[.m1], [.m2], none⟩

omit [DecidableEq ι] in
/-- They wait for each other. -/
theorem Placed.deadlocked (h : Placed order s) (ht : s.tasks t = ⟨[.m2], [.m1], none⟩)
    (hu : s.tasks u = ⟨[.m1], [.m2], none⟩) : Deadlocked s {t, u} := by
  have h1 : s.owner .m1 = some t := h.owner (by rw [ht]; exact List.mem_singleton_self _)
  have h2 : s.owner .m2 = some u := h.owner (by rw [hu]; exact List.mem_singleton_self _)
  rintro v (rfl | rfl)
  · exact ⟨.m2, [], u, .inr rfl, by rw [ht], h2⟩
  · exact ⟨.m1, [], t, .inl rfl, by rw [hu], h1⟩

/-- A thread is about to run its destructors. -/
def Leaves (k : Holder Mtx) : Prop := k.ahead = [] ∧ k.held ≠ []

/-- A thread stands between its two locks. -/
def Half (k : Holder Mtx) : Prop := k.ahead ≠ [] ∧ k.held ≠ []

/-- A step after which nobody new stands between the locks does not make threads cross. -/
theorem not_crossed_of_moved {k : Holder Mtx} (h : ¬ Crossed s) (hm : Moved s t k s')
    (hnew : ¬ Half (s'.tasks t)) : ¬ Crossed s' := by
  rintro ⟨v, w, hv, hw⟩
  have hne : ∀ x m m', s'.tasks x = ⟨[m], [m'], none⟩ → x ≠ t := fun x m m' hx e =>
    hnew (by rw [← e, hx]; exact ⟨List.cons_ne_nil _ _, List.cons_ne_nil _ _⟩)
  rw [moved_of_ne hm (hne v _ _ hv)] at hv
  rw [moved_of_ne hm (hne w _ _ hw)] at hw
  exact h ⟨v, w, hv, hw⟩

/-- Destructors are never kept. -/
theorem leaves_moves (ht : Leaves (s.tasks t)) :
    ∃ s', s.step false (.advance t) = some s' ∧ ¬ Half (s'.tasks t) := by
  obtain ⟨hahead, hheld⟩ := ht
  change ∃ s', s.advance t (s.tasks t) = some s' ∧ _
  generalize s.tasks t = k at hahead hheld
  obtain ⟨ahead, held, failed⟩ := k
  obtain rfl : ahead = [] := hahead
  cases held with
  | nil => exact absurd rfl hheld
  | cons m held =>
      refine ⟨_, rfl, fun hhalf => hhalf.1 ?_⟩
      simp only [Function.update_self]

/-- A thread between its locks gets the second one, when nobody runs destructors and nobody has
    crossed. -/
theorem Placed.half_moves (h : Placed order s) (hcross : ¬ Crossed s)
    (hleaves : ∀ v, ¬ Leaves (s.tasks v)) (ht : Half (s.tasks t)) :
    ∃ s', s.step false (.advance t) = some s' ∧ ¬ Half (s'.tasks t) := by
  have hk : s.tasks t = ⟨[(order t).second], [(order t).first], none⟩ := by
    have hp := h.place t
    generalize s.tasks t = k at hp ht
    cases hp with
    | half => rfl
    | begin | done | failedFirst | gaveBack => exact absurd rfl ht.2
    | both | leaving | failedSecond => exact absurd rfl ht.1
  have hfree : s.owner (order t).second = none := by
    by_contra hown
    obtain ⟨u, hu⟩ := Option.ne_none_iff_exists'.mp hown
    have hheld := (h.owned.owner _ u).mp hu
    -- The owner stands between its locks too, so it goes the other way.
    have hku : s.tasks u = ⟨[(order u).second], [(order u).first], none⟩ := by
      have hp := h.place u
      have hl := hleaves u
      generalize s.tasks u = k at hp hl hheld
      cases hp with
      | half => rfl
      | begin | done | failedFirst | gaveBack => exact absurd hheld List.not_mem_nil
      | both | leaving | failedSecond => exact absurd ⟨rfl, List.cons_ne_nil _ _⟩ hl
    rw [hku] at hheld
    have hfirst : (order t).second = (order u).first := List.mem_singleton.mp hheld
    cases ht' : order t <;> cases hu' : order u <;> rw [ht', hu'] at hfirst <;>
      rw [ht'] at hk <;> rw [hu'] at hku
    · cases hfirst
    · exact hcross ⟨t, u, hk, hku⟩
    · exact hcross ⟨u, t, hku, hk⟩
    · cases hfirst
  refine ⟨_, advance_locks hk hfree, fun hhalf => hhalf.1 ?_⟩
  simp only [Function.update_self]

/-- When nobody holds anything, a thread that has not returned gets its first lock, and there is
    nobody to cross. -/
theorem Placed.begin_moves (h : Placed order s) (hnone : ∀ v, (s.tasks v).held = [])
    (ht : ¬ (s.tasks t).Done) :
    ∃ s', s.step false (.advance t) = some s' ∧ ¬ Crossed s' := by
  have hk : s.tasks t = ⟨[(order t).first, (order t).second], [], none⟩ := by
    have hp := h.place t
    have hheld := hnone t
    generalize s.tasks t = k at hp hheld ht
    cases hp with
    | begin => rfl
    | done | failedFirst | gaveBack => exact absurd ⟨rfl, rfl⟩ ht
    | half | both | leaving | failedSecond => cases hheld
  have hfree : s.owner (order t).first = none := by
    by_contra hown
    obtain ⟨u, hu⟩ := Option.ne_none_iff_exists'.mp hown
    have hheld := (h.owned.owner _ u).mp hu
    rw [hnone u] at hheld
    exact List.not_mem_nil hheld
  refine ⟨_, advance_locks hk hfree, ?_⟩
  rintro ⟨v, w, hv, hw⟩
  -- Only `t` holds anything, and it cannot be both of them.
  have hself : ∀ x m m', Function.update s.tasks t
      (⟨[(order t).second], [(order t).first], none⟩ : Holder Mtx) x = ⟨[m], [m'], none⟩ →
      x = t := by
    intro x m m' hx
    by_contra e
    rw [Function.update_of_ne e] at hx
    have := hnone x
    rw [hx] at this
    cases this
  obtain rfl := hself v _ _ hv
  obtain rfl := hself w _ _ hw
  cases hv.symm.trans hw

/-- **As long as nobody has crossed, some step brings the threads nearer to their end** and lets
    nobody cross. -/
theorem Placed.exists_step (h : Placed order s) (hcross : ¬ Crossed s) (hfin : ¬ s.Finished) :
    ∃ t s', s.step false (.advance t) = some s' ∧ ¬ Crossed s' := by
  by_cases hl : ∃ v, Leaves (s.tasks v)
  · obtain ⟨v, hv⟩ := hl
    obtain ⟨s', hs, hnew⟩ := leaves_moves hv
    exact ⟨v, s', hs, not_crossed_of_moved hcross (step_moved hs) hnew⟩
  · have hleaves := not_exists.mp hl
    by_cases hh : ∃ v, Half (s.tasks v)
    · obtain ⟨v, hv⟩ := hh
      obtain ⟨s', hs, hnew⟩ := h.half_moves hcross hleaves hv
      exact ⟨v, s', hs, not_crossed_of_moved hcross (step_moved hs) hnew⟩
    · have hnone : ∀ v, (s.tasks v).held = [] := fun v => by
        by_contra hheld
        by_cases ha : (s.tasks v).ahead = []
        · exact hleaves v ⟨ha, hheld⟩
        · exact hh ⟨v, ha, hheld⟩
      obtain ⟨t, ht⟩ := not_forall.mp hfin
      obtain ⟨s', hs, hnew⟩ := h.begin_moves hnone ht
      exact ⟨t, s', hs, hnew⟩

/-- **The program can still return from a state exactly when no two threads have crossed there**,
    for any number of threads with either order. -/
theorem deadlock_iff [Fintype ι] (order : ι → GuardOrder) {s : Guards ι Mtx}
    (h : Reach (Guards.step false) (guarding order) s) :
    (∃ as s', run (Guards.step false) s as = some s' ∧ s'.Finished) ↔ ¬ Crossed s := by
  have hp : Placed order s := placed_reach h
  constructor
  · rintro ⟨as, s', hrun, hfin⟩ ⟨t, u, ht, hu⟩
    exact (deadlocked_run hp.owned (hp.deadlocked ht hu) hrun).not_finished (.inl rfl) hfin
  · intro hcross
    obtain ⟨as, s', hrun, -, -, hfin⟩ := exists_run_of_measure
      (I := fun s => Placed order s ∧ ¬ Crossed s) (P := Guards.Finished) (c := fun _ => True)
      (fun s => ∑ u, (s.tasks u).left)
      (fun s hI hnot => by
        obtain ⟨t, s', hs, hnew⟩ := hI.1.exists_step hI.2 hnot
        exact ⟨Action.advance t, s', trivial, hs, ⟨hI.1.step hs, hnew⟩,
          left_moved rfl (step_moved hs)⟩)
      (Nat.le_refl _) ⟨hp, hcross⟩
    exact ⟨as, s', hrun, hfin⟩

end Steps

/-- `Deadlock`: the first thread has both mutexes, then it returns and the second one follows; or
    each has its first mutex, and neither ever returns. -/
theorem deadlock_iff_bothWays :
    (∃ s, Reach (Guards.step false) (guarding deadlock) s ∧
      ∃ as s', run (Guards.step false) s as = some s' ∧ s'.Finished) ∧
    ∃ s, Reach (Guards.step false) (guarding deadlock) s ∧
      ¬ ∃ as s', run (Guards.step false) s as = some s' ∧ s'.Finished := by
  have hcrossed : ∀ s : Guards Thread Mtx,
      decide (s.tasks .thread1 = ⟨[.m2], [.m1], none⟩ ∧
        s.tasks .thread2 = ⟨[.m1], [.m2], none⟩) = true → Crossed s :=
    fun s hs => ⟨.thread1, .thread2, of_decide_eq_true hs⟩
  constructor
  · obtain ⟨s, hs, hp⟩ := reach_of_run (Guards.step false) (fun _ _ => true) (guarding deadlock)
      [.advance .thread1, .advance .thread1]
      (fun s => decide ((s.tasks .thread1).ahead = [] ∧
        s.tasks .thread2 = ⟨[.m2, .m1], [], none⟩)) (by decide +kernel)
    obtain ⟨h1, h2⟩ := of_decide_eq_true hp
    refine ⟨s, hs.reach, (deadlock_iff deadlock hs.reach).mpr ?_⟩
    rintro ⟨t, u, ht, hu⟩
    cases u with
    | thread1 => rw [hu] at h1; cases h1
    | thread2 => rw [hu] at h2; cases h2
  · obtain ⟨s, hs, hp⟩ := reach_of_run (Guards.step false) (fun _ _ => true) (guarding deadlock)
      [.advance .thread1, .advance .thread2]
      (fun s => decide (s.tasks .thread1 = ⟨[.m2], [.m1], none⟩ ∧
        s.tasks .thread2 = ⟨[.m1], [.m2], none⟩)) (by decide +kernel)
    exact ⟨s, hs.reach, fun hret => (deadlock_iff deadlock hs.reach).mp hret (hcrossed s hp)⟩

/-! ## 4. Timeouts -/

/-- The line a thread of `Livelock` prints before it returns early. -/
def failureLine : Thread → Mtx → String
  | .thread1, .m1 => "First thread failed to get m1 lock"
  | .thread1, .m2 => "First thread failed to get m2 lock"
  | .thread2, .m1 => "Second thread failed to get m1 lock"
  | .thread2, .m2 => "Second thread failed to get m2 lock"

def printed (s : Guards Thread Mtx) (t : Thread) : Option String :=
  (s.tasks t).failed.map (failureLine t)

/-- A lock that gives up has found its mutex owned. -/
def contended (s : Guards Thread Mtx) : Action Thread → Bool
  | .advance _ => true
  | .giveUp t => ((s.tasks t).ahead.head?.bind s.owner).isSome

/-- What the two threads print. -/
def outcomes : List (Option String × Option String) :=
  [(none, none),
    (some "First thread failed to get m1 lock", none),
    (some "First thread failed to get m2 lock", none),
    (none, some "Second thread failed to get m2 lock"),
    (none, some "Second thread failed to get m1 lock"),
    (some "First thread failed to get m2 lock", some "Second thread failed to get m1 lock")]

/-- **A thread that has failed on its first mutex has met a thread with both.** -/
structure Met (s : Guards Thread Mtx) : Prop where
  placed : Placed deadlock s
  met : ∀ t, (s.tasks t).failed = some (deadlock t).first →
    (s.tasks t.other).ahead = [] ∧ (s.tasks t.other).failed = none

theorem Thread.eq_or_other (t u : Thread) : u = t ∨ u = t.other := by
  cases t <;> cases u <;> decide

theorem second_other (t : Thread) : (deadlock t.other).second = (deadlock t).first := by
  cases t <;> rfl

theorem other_other (t : Thread) : t.other.other = t := by
  cases t <;> rfl

theorem other_ne (t : Thread) : t.other ≠ t := by
  cases t <;> decide

theorem first_ne_second (o : GuardOrder) : o.first ≠ o.second := by
  cases o <;> decide

section Timed

variable {s s' : Guards Thread Mtx} {t : Thread}

theorem Met.advance (h : Met s) (hm : Moved s t (s.tasks t) s')
    (hsame : (s'.tasks t).failed = (s.tasks t).failed)
    (hshort : (s.tasks t).ahead = [] → (s'.tasks t).ahead = []) (hp : Placed deadlock s') :
    Met s' := by
  refine ⟨hp, fun u hu => ?_⟩
  rcases t.eq_or_other u with rfl | rfl
  · rw [hsame] at hu
    rw [moved_of_ne hm (other_ne u)]
    exact h.met u hu
  · rw [moved_of_ne hm (other_ne t)] at hu
    have hmet := h.met t.other hu
    rw [other_other] at hmet ⊢
    exact ⟨hshort hmet.1, hsame.trans hmet.2⟩

/-- A timeout on the first mutex: its owner is the other thread, which has locked it last. -/
theorem Met.giveUp (h : Met s) {m : Mtx} {ahead held : List Mtx} {failed : Option Mtx}
    (hk : s.tasks t = ⟨m :: ahead, held, failed⟩) (howned : (s.owner m).isSome = true)
    (hp : Placed deadlock { s with tasks := Function.update s.tasks t ⟨[], held, some m⟩ }) :
    Met { s with tasks := Function.update s.tasks t ⟨[], held, some m⟩ } := by
  refine ⟨hp, fun u hu => ?_⟩
  rcases t.eq_or_other u with rfl | rfl
  · simp only [Function.update_self] at hu
    obtain rfl : m = (deadlock u).first := Option.some.inj hu
    simp only [Function.update_of_ne (other_ne u)]
    obtain ⟨w, hw⟩ := Option.isSome_iff_exists.mp howned
    have hheld := (h.placed.owned.owner _ w).mp hw
    have hpu := h.placed.place u
    rw [hk] at hpu
    rcases u.eq_or_other w with rfl | rfl
    · -- A thread that holds its first mutex is to lock the second one.
      rw [hk] at hheld
      generalize hf : (deadlock w).first = f at hpu hheld
      generalize hg : (deadlock w).second = g at hpu
      cases hpu with
      | begin => exact absurd hheld List.not_mem_nil
      | half => exact absurd (hf.trans hg.symm) (first_ne_second _)
    · have hpo := h.placed.place u.other
      rw [second_other] at hpo
      have hne : (deadlock u.other).first ≠ (deadlock u).first := by
        rw [← second_other u]
        exact first_ne_second _
      generalize s.tasks u.other = k at hpo hheld
      cases hpo with
      | both => exact ⟨rfl, rfl⟩
      | half | leaving | failedSecond => exact absurd (List.mem_singleton.mp hheld).symm hne
      | begin | done | failedFirst | gaveBack => exact absurd hheld List.not_mem_nil
  · simp only [Function.update_of_ne (other_ne t)] at hu
    have hmet := (h.met t.other hu).1
    rw [other_other, hk] at hmet
    cases hmet

theorem Met.step {a : Action Thread} (h : Met s) (hc : contended s a = true)
    (hs : s.step true a = some s') : Met s' := by
  have hp := h.placed.step hs
  have hm := step_moved hs
  cases a with
  | advance t =>
      have hadv : s.advance t (s.tasks t) = some s' := hs
      have hkept : (s'.tasks t).failed = (s.tasks t).failed ∧
          ((s.tasks t).ahead = [] → (s'.tasks t).ahead = []) := by
        generalize s.tasks t = k at hadv
        obtain ⟨ahead, held, failed⟩ := k
        cases ahead with
        | cons m ahead =>
            simp only [Guards.advance] at hadv
            split at hadv
            · obtain rfl := Option.some.inj hadv
              exact ⟨by simp only [Function.update_self], fun e => by cases e⟩
            · cases hadv
        | nil =>
            cases held with
            | nil => cases hadv
            | cons m held =>
                obtain rfl := Option.some.inj hadv
                exact ⟨by simp only [Function.update_self],
                  fun _ => by simp only [Function.update_self]⟩
      exact h.advance hm hkept.1 hkept.2 hp
  | giveUp t =>
      have hgive : s.giveUp t (s.tasks t) = some s' := hs
      cases hk : s.tasks t with
      | mk ahead held failed =>
          rw [hk] at hgive
          cases ahead with
          | nil => cases hgive
          | cons m ahead =>
              obtain rfl := Option.some.inj hgive
              simp only [contended, hk, List.head?_cons, Option.bind_some] at hc
              exact h.giveUp hk hc hp

theorem met_start : Met (guarding deadlock) := ⟨placed_start, fun _ h => by cases h⟩

/-- What a thread that has returned may have failed on. -/
theorem Placed.failed_of_done (h : Placed deadlock s) (hd : (s.tasks t).Done) :
    (s.tasks t).failed = none ∨ (s.tasks t).failed = some (deadlock t).first ∨
      (s.tasks t).failed = some (deadlock t).second := by
  have hp := h.place t
  generalize s.tasks t = k at hp hd
  cases hp with
  | done => exact .inl rfl
  | failedFirst => exact .inr (.inl rfl)
  | gaveBack => exact .inr (.inr rfl)
  | begin | half => cases hd.1
  | both | leaving | failedSecond => cases hd.2

theorem Met.outcome (h : Met s) (hfin : s.Finished) :
    (printed s .thread1, printed s .thread2) ∈ outcomes := by
  have h1 := h.placed.failed_of_done (hfin .thread1)
  have h2 := h.placed.failed_of_done (hfin .thread2)
  have m1 := h.met .thread1
  have m2 := h.met .thread2
  simp only [deadlock, GuardOrder.first, GuardOrder.second, Thread.other] at h1 h2 m1 m2
  rcases h1 with h1 | h1 | h1 <;> rcases h2 with h2 | h2 | h2 <;>
    simp [h1, h2] at m1 m2 <;> simp [printed, h1, h2, outcomes, failureLine]

end Timed

/-- A schedule that was evaluated, and what is printed at its end. -/
theorem exists_outcome (as : List (Action Thread)) (f₁ f₂ : Option Mtx)
    (h : (run (guarded (Guards.step true) contended) (guarding deadlock) as).map
      (fun s => decide (s.tasks .thread1 = ⟨[], [], f₁⟩ ∧ s.tasks .thread2 = ⟨[], [], f₂⟩)) =
        some true) :
    ∃ s, ReachWhere (Guards.step true) (fun s a => contended s a = true) (guarding deadlock) s ∧
      s.Finished ∧ (printed s .thread1, printed s .thread2) =
        (f₁.map (failureLine .thread1), f₂.map (failureLine .thread2)) := by
  obtain ⟨s, hs, hp⟩ := reach_of_run (Guards.step true) contended (guarding deadlock) as _ h
  obtain ⟨h1, h2⟩ := of_decide_eq_true hp
  refine ⟨s, hs, fun t => ?_, by simp only [printed, h1, h2]⟩
  cases t with
  | thread1 => rw [h1]; exact ⟨rfl, rfl⟩
  | thread2 => rw [h2]; exact ⟨rfl, rfl⟩

/-- The next `n` steps of thread `t`. -/
def goes (n : ℕ) (t : Thread) : List (Action Thread) := List.replicate n (.advance t)

/-- **`Livelock` always returns, and prints one of six combinations**: both threads may fail on
    their second mutex, but one that fails on its first leaves the other without a failure. -/
theorem livelock_outcomes :
    Halts (Guards.step true) (guarding deadlock) Guards.Finished ∧
    (∀ s, ReachWhere (Guards.step true) (fun s a => contended s a = true) (guarding deadlock) s →
      s.Finished → (printed s .thread1, printed s .thread2) ∈ outcomes) ∧
    ∀ o ∈ outcomes, ∃ s,
      ReachWhere (Guards.step true) (fun s a => contended s a = true) (guarding deadlock) s ∧
        s.Finished ∧ (printed s .thread1, printed s .thread2) = o := by
  refine ⟨halts_of_timed _, fun s hs hfin => ?_, ?_⟩
  · exact (hs.invariant (I := Met) met_start fun _ _ _ hI hc hstep => hI.step hc hstep).outcome hfin
  · simp only [outcomes, List.forall_mem_cons, List.not_mem_nil, false_implies, implies_true,
      and_true]
    refine ⟨?_, ?_, ?_, ?_, ?_, ?_⟩
    · exact exists_outcome (goes 4 .thread1 ++ goes 4 .thread2) none none (by decide +kernel)
    · exact exists_outcome (goes 2 .thread2 ++ [.giveUp .thread1] ++ goes 2 .thread2)
        (some .m1) none (by decide +kernel)
    · exact exists_outcome (goes 1 .thread1 ++ goes 1 .thread2 ++ [.giveUp .thread1] ++
        goes 1 .thread1 ++ goes 3 .thread2) (some .m2) none (by decide +kernel)
    · exact exists_outcome (goes 2 .thread1 ++ [.giveUp .thread2] ++ goes 2 .thread1)
        none (some .m2) (by decide +kernel)
    · exact exists_outcome (goes 1 .thread2 ++ goes 1 .thread1 ++ [.giveUp .thread2] ++
        goes 1 .thread2 ++ goes 3 .thread1) none (some .m1) (by decide +kernel)
    · exact exists_outcome (goes 1 .thread1 ++ goes 1 .thread2 ++
        [.giveUp .thread1, .giveUp .thread2] ++ goes 1 .thread1 ++ goes 1 .thread2)
        (some .m2) (some .m1) (by decide +kernel)

end HseMultithreading.Sync
