/-
  File:      HseMultithreading/LockFree/Progress.lean
  Subject:   PROGRESS OF THE TWO LOCK-FREE STACKS: how many steps any number of threads can take.

  A failed `compare_exchange_weak` starts the loop over. It fails for no reason, or because another
  thread's exchange has succeeded since the load; and a call makes at most one successful exchange.
  So the failures of all threads together are paid for by the calls.

  * `BufferedPc.cost`, `StackPc.cost` -- what a call may still do before somebody else's exchange,
    and what it owes the others for its own;
  * **`buffered_lock_free`**, **`linked_lock_free`** -- in every run of `n` threads the number of
    steps is bounded by the number of calls, times a constant and `n`, and twice the number of
    spurious failures. No thread can make another one loop for ever without completing calls itself.
-/
import HseMultithreading.Lib.Amortized
import HseMultithreading.LockFree.Buffered
import HseMultithreading.LockFree.Linked

namespace HseMultithreading.LockFree

open StepSystem Amortized Finset

/-- A failed exchange goes back to the load: the exchange was hopeless, or it is paid for apart. -/
theorem failed_paid {P : Type*} [DecidableEq P] {head top : P} {spurious : Bool} {k : ℕ}
    (h : ¬(head = top ∧ spurious = false)) :
    k + 2 + 1 ≤ (if head = top then k + 1 else k + 3) + if spurious then 2 else 0 := by
  cases spurious with
  | true => split <;> simp
  | false =>
      rw [if_neg fun htop => h ⟨htop, rfl⟩]
      exact Nat.le_refl _

/-! ## 1. `BufferedLockFreeSPSCStack` -/

section Buffered

variable {T : Type*}

/-- What a thread may still do on its own account as long as `m_head` stays `head`: the steps up to
    the end of its call, and two steps of every thread for the exchange it has not made yet. -/
def BufferedPc.cost (n : ℕ) (head : ℤ) : Option (BufferedPc T) → ℕ
  | none => 0
  | some (.pushLoad _) | some .popLoad => 2 * n + 2
  | some (.pushCas _ top) | some (.popCas top) => if head = top then 2 * n + 1 else 2 * n + 3
  | some (.write _ _) | some (.read _) => 1

def Buffered.cost (n : ℕ) (s : Buffered T) (t : ℕ) : ℕ := BufferedPc.cost n s.head (s.threads t)

def BufferedAction.thread : BufferedAction T → ℕ
  | .push t _ | .pop t | .advance t _ => t

def BufferedAction.isCall : BufferedAction T → Bool
  | .push _ _ | .pop _ => true
  | .advance _ _ => false

/-- An exchange that may fail for no reason. -/
def BufferedAction.isSpurious : BufferedAction T → Bool
  | .advance _ spurious => spurious
  | .push _ _ | .pop _ => false

/-- What an action pays for. -/
def BufferedAction.credit (n : ℕ) (a : BufferedAction T) : ℕ :=
  if a.isCall then 2 * n + 3 else if a.isSpurious then 2 else 0

variable {s s' : Buffered T} {t : ℕ} {ts : Finset ℕ}

/-- A change of `m_head` costs the loop of another call at most two steps. -/
theorem BufferedPc.cost_le (n : ℕ) (head head' : ℤ) (pc : Option (BufferedPc T)) :
    BufferedPc.cost n head' pc ≤ BufferedPc.cost n head pc + 2 := by
  rcases pc with _ | pc
  · exact Nat.zero_le _
  · cases pc with
    | pushCas value top | popCas top => simp only [BufferedPc.cost]; split <;> split <;> omega
    | _ => exact Nat.le_add_right _ _

/-- A step that leaves `m_head` alone is paid for by its own thread. -/
theorem Buffered.move_paid {c : ℕ} (new : Option (BufferedPc T)) (ht : t ∈ ts)
    (hth : s'.threads = Function.update s.threads t new) (hhead : s'.head = s.head)
    (hown : BufferedPc.cost ts.card s.head new + 1 ≤ s.cost ts.card t + c) :
    ∑ u ∈ ts, s'.cost ts.card u + 1 ≤ ∑ u ∈ ts, s.cost ts.card u + c := by
  refine sum_pay (d := 0) ht (fun u _ hu => ?_) ?_
  · unfold Buffered.cost
    rw [hth, hhead, Function.update_of_ne hu]
    exact Nat.le_add_right _ _
  · have : s'.cost ts.card t = BufferedPc.cost ts.card s.head new := by
      unfold Buffered.cost
      rw [hth, hhead, Function.update_self]
    omega

/-- A successful exchange is paid for with what its call has kept for it. -/
theorem Buffered.exchange_paid (new : BufferedPc T) (ht : t ∈ ts)
    (hth : s'.threads = Function.update s.threads t (some new))
    (hown : s.cost ts.card t = 2 * ts.card + 1) (hnew : s'.cost ts.card t = 1) :
    ∑ u ∈ ts, s'.cost ts.card u + 1 ≤ ∑ u ∈ ts, s.cost ts.card u := by
  refine sum_pay (d := 2) (c := 0) ht (fun u _ hu => ?_) (by omega)
  unfold Buffered.cost
  rw [hth, Function.update_of_ne hu]
  exact BufferedPc.cost_le _ _ _ _

theorem Buffered.advance_paid {capacity : ℕ} {spurious : Bool} {pc : BufferedPc T} (ht : t ∈ ts)
    (hpc : s.threads t = some pc) :
    ∑ u ∈ ts, (s.advance capacity t spurious pc).cost ts.card u + 1 ≤
      ∑ u ∈ ts, s.cost ts.card u + if spurious then 2 else 0 := by
  have hcost : s.cost ts.card t = BufferedPc.cost ts.card s.head (some pc) := by
    unfold Buffered.cost
    rw [hpc]
  cases pc with
  | pushLoad value =>
      rw [Buffered.advance]
      split
      · exact Buffered.move_paid none ht rfl rfl (by simp only [hcost, BufferedPc.cost]; omega)
      · refine Buffered.move_paid (some (.pushCas value s.head)) ht rfl rfl ?_
        simp only [hcost, BufferedPc.cost, if_true]
        omega
  | pushCas value top =>
      rw [Buffered.advance]
      split
      next h =>
        rw [h.2]
        refine Buffered.exchange_paid (.write value top) ht rfl ?_ ?_
        · simp only [hcost, BufferedPc.cost, if_pos h.1]
        · exact congrArg (BufferedPc.cost ts.card (top + 1)) (Function.update_self t _ s.threads)
      next h =>
        refine Buffered.move_paid (some (.pushLoad value)) ht rfl rfl ?_
        simp only [hcost, BufferedPc.cost]
        exact failed_paid h
  | write value top =>
      exact Buffered.move_paid none ht rfl rfl (by simp only [hcost, BufferedPc.cost]; omega)
  | popLoad =>
      rw [Buffered.advance]
      split
      · exact Buffered.move_paid none ht rfl rfl (by simp only [hcost, BufferedPc.cost]; omega)
      · refine Buffered.move_paid (some (.popCas s.head)) ht rfl rfl ?_
        simp only [hcost, BufferedPc.cost, if_true]
        omega
  | popCas top =>
      rw [Buffered.advance]
      split
      next h =>
        rw [h.2]
        refine Buffered.exchange_paid (.read (top - 1)) ht rfl ?_ ?_
        · simp only [hcost, BufferedPc.cost, if_pos h.1]
        · exact congrArg (BufferedPc.cost ts.card (top - 1)) (Function.update_self t _ s.threads)
      next h =>
        refine Buffered.move_paid (some .popLoad) ht rfl rfl ?_
        simp only [hcost, BufferedPc.cost]
        exact failed_paid h
  | read i =>
      exact Buffered.move_paid none ht rfl rfl (by simp only [hcost, BufferedPc.cost]; omega)

theorem Buffered.call_paid {pc : BufferedPc T} (ht : t ∈ ts)
    (hcost : BufferedPc.cost ts.card s.head (some pc) = 2 * ts.card + 2) :
    ∑ u ∈ ts, (s.goto t pc).cost ts.card u + 1 ≤
      ∑ u ∈ ts, s.cost ts.card u + (2 * ts.card + 3) := by
  refine Buffered.move_paid (some pc) ht rfl rfl ?_
  omega

/-- **Every step is paid for.** -/
theorem Buffered.step_paid {capacity : ℕ} {a : BufferedAction T} (ha : a.thread ∈ ts)
    (hs : s.step capacity a = some s') :
    ∑ u ∈ ts, s'.cost ts.card u + 1 ≤ ∑ u ∈ ts, s.cost ts.card u + a.credit ts.card := by
  cases a with
  | push t value =>
      cases hpc : s.threads t with
      | some pc => simp only [Buffered.step, hpc, reduceCtorEq] at hs
      | none =>
          simp only [Buffered.step, hpc, Option.some.injEq] at hs
          rw [← hs]
          exact Buffered.call_paid ha rfl
  | pop t =>
      cases hpc : s.threads t with
      | some pc => simp only [Buffered.step, hpc, reduceCtorEq] at hs
      | none =>
          simp only [Buffered.step, hpc, Option.some.injEq] at hs
          rw [← hs]
          exact Buffered.call_paid ha rfl
  | advance t spurious =>
      obtain ⟨pc, hpc, rfl⟩ := Option.map_eq_some_iff.mp hs
      exact Buffered.advance_paid ha hpc

/-- **The buffered stack is lock-free.** Every step of a run is one of at most `2n + 3` steps for a
    call or of two for a spurious failure, whatever the threads do to each other; and a thread
    inside a call always has its next step. -/
theorem buffered_lock_free [Inhabited T] (capacity : ℕ) (ts : Finset ℕ)
    {as : List (BufferedAction T)} (hts : ∀ a ∈ as, a.thread ∈ ts)
    (hrun : (run (Buffered.step capacity) .start as).isSome) :
    (as.length ≤ (2 * ts.card + 3) * as.countP BufferedAction.isCall +
      2 * as.countP BufferedAction.isSpurious) ∧
    ∀ (s : Buffered T) t spurious, s.threads t ≠ none →
      (s.step capacity (.advance t spurious)).isSome = true := by
  refine ⟨?_, fun s t spurious ht => by
    rw [Buffered.step, Option.isSome_map, Option.isSome_iff_ne_none]
    exact ht⟩
  obtain ⟨s, hs⟩ := Option.isSome_iff_exists.mp hrun
  have hstart : ∑ u ∈ ts, (Buffered.start : Buffered T).cost ts.card u = 0 :=
    sum_eq_zero fun u _ => rfl
  have hpaid := length_le_of_credit (fun s => ∑ u ∈ ts, s.cost ts.card u)
    (BufferedAction.credit ts.card)
    (fun s a s' (ha : a.thread ∈ ts) hs => Buffered.step_paid ha hs) hs hts
  have hcredits := sum_credit_le (BufferedAction.isCall (T := T)) BufferedAction.isSpurious
    (2 * ts.card + 3) 2 as
  simp only [hstart] at hpaid
  exact (Nat.le_add_left _ _).trans (hpaid.trans ((Nat.zero_add _).trans_le hcredits))

/-- Thread 0 and thread 1 push; the exchange of thread 1 makes the one of thread 0 fail, and then it
    fails once more for no reason. -/
def contended : List (BufferedAction ℕ) :=
  [.push 0 7, .push 1 8, .advance 0 false, .advance 1 false, .advance 1 false, .advance 0 false,
    .advance 0 false, .advance 0 true, .advance 0 false, .advance 0 false, .advance 1 false,
    .advance 0 false]

theorem buffered_lock_free_contended :
    (run (Buffered.step 4) .start contended).isSome ∧
      contended.length ≤ (2 * ({0, 1} : Finset ℕ).card + 3) *
        contended.countP BufferedAction.isCall + 2 * contended.countP BufferedAction.isSpurious :=
  ⟨by decide +kernel, (buffered_lock_free 4 {0, 1} (by decide) (by decide +kernel)).1⟩

end Buffered

/-! ## 2. `LockFreeSPSCStack` -/

section Linked

variable {T : Type*}

/-- As for the buffer. A push sees at its exchange whether the `next` of its node is `m_head`; a pop
    that has loaded an outdated `oldHead` still reads its `next` before it fails. -/
def StackPc.cost (n : ℕ) (head : Option ℕ) (next : ℕ → Option ℕ) : Option (StackPc T) → ℕ
  | none => 0
  | some (.pushLoad _ _) => 2 * n + 2
  | some (.pushCas _ a) => if head = next a then 2 * n + 1 else 2 * n + 2
  | some .popLoad => 2 * n + 3
  | some (.popNext a) => if head = some a then 2 * n + 2 else 2 * n + 4
  | some (.popCas a _) => if head = some a then 2 * n + 1 else 2 * n + 3
  | some (.popData _) => 2
  | some (.popDelete _ _) => 1

namespace LockFreeSPSCStack

def cost (n : ℕ) (s : LockFreeSPSCStack T) (t : ℕ) : ℕ :=
  StackPc.cost n s.head s.next (s.threads t)

end LockFreeSPSCStack

def StackAction.thread : StackAction T → ℕ
  | .push t _ _ | .pop t | .advance t _ => t

def StackAction.isCall : StackAction T → Bool
  | .push _ _ _ | .pop _ => true
  | .advance _ _ => false

def StackAction.isSpurious : StackAction T → Bool
  | .advance _ spurious => spurious
  | .push _ _ _ | .pop _ => false

def StackAction.credit (n : ℕ) (a : StackAction T) : ℕ :=
  if a.isCall then 3 * n + 4 else if a.isSpurious then 2 else 0

variable {s s' : LockFreeSPSCStack T} {t : ℕ} {ts : Finset ℕ} {n : ℕ} {head head' : Option ℕ}
  {next next' : ℕ → Option ℕ}

/-- A change of `m_head` costs the loop of another call at most two steps. -/
theorem StackPc.cost_le (pc : Option (StackPc T)) :
    StackPc.cost n head' next' pc ≤ StackPc.cost n head next pc + 2 := by
  rcases pc with _ | pc
  · exact Nat.zero_le _
  · cases pc with
    | pushCas _ _ | popNext _ | popCas _ _ =>
        simp only [StackPc.cost]
        split <;> split <;> omega
    | _ => exact Nat.le_add_right _ _

/-- A change of links alone costs it at most one step. -/
theorem StackPc.cost_links (pc : Option (StackPc T)) :
    StackPc.cost n head next' pc ≤ StackPc.cost n head next pc + 1 := by
  rcases pc with _ | pc
  · exact Nat.zero_le _
  · cases pc with
    | pushCas _ _ => simp only [StackPc.cost]; split <;> split <;> omega
    | _ => exact Nat.le_add_right _ _

/-- To point a node at `m_head` costs it nothing. -/
theorem StackPc.cost_relink (h : ∀ a, next' a = next a ∨ next' a = head)
    (pc : Option (StackPc T)) : StackPc.cost n head next' pc ≤ StackPc.cost n head next pc := by
  rcases pc with _ | pc
  · exact Nat.zero_le _
  · cases pc with
    | pushCas _ a =>
        simp only [StackPc.cost]
        rcases h a with ha | ha
        · rw [ha]
        · rw [if_pos ha.symm]
          split <;> omega
    | _ => exact Nat.le_refl _

namespace LockFreeSPSCStack

/-- A step that leaves `m_head` alone is paid for by its own thread. -/
theorem move_paid {c : ℕ} (new : Option (StackPc T)) (ht : t ∈ ts)
    (hth : s'.threads = Function.update s.threads t new) (hhead : s'.head = s.head)
    (hnext : ∀ a, s'.next a = s.next a ∨ s'.next a = s.head)
    (hown : StackPc.cost ts.card s.head s'.next new + 1 ≤ s.cost ts.card t + c) :
    ∑ u ∈ ts, s'.cost ts.card u + 1 ≤ ∑ u ∈ ts, s.cost ts.card u + c := by
  refine sum_pay (d := 0) ht (fun u _ hu => ?_) ?_
  · unfold cost
    rw [hth, hhead, Function.update_of_ne hu]
    exact StackPc.cost_relink hnext _
  · have : s'.cost ts.card t = StackPc.cost ts.card s.head s'.next new := by
      unfold cost
      rw [hth, hhead, Function.update_self]
    omega

/-- A successful exchange is paid for with what its call has kept for it. -/
theorem exchange_paid (new : Option (StackPc T)) (ht : t ∈ ts)
    (hth : s'.threads = Function.update s.threads t new)
    (hown : s.cost ts.card t = 2 * ts.card + 1)
    (hnew : StackPc.cost ts.card s'.head s'.next new ≤ 2) :
    ∑ u ∈ ts, s'.cost ts.card u + 1 ≤ ∑ u ∈ ts, s.cost ts.card u := by
  have hself : s'.cost ts.card t = StackPc.cost ts.card s'.head s'.next new := by
    unfold cost
    rw [hth, Function.update_self]
  refine sum_pay (d := 2) (c := 0) ht (fun u _ hu => ?_) (by omega)
  unfold cost
  rw [hth, Function.update_of_ne hu]
  exact StackPc.cost_le _

/-- A new node may lie where the node of another thread lay, and spoil the exchange of every other
    thread. The push that gets it pays. -/
theorem alloc_paid (new : StackPc T) (ht : t ∈ ts)
    (hth : s'.threads = Function.update s.threads t (some new)) (hhead : s'.head = s.head)
    (hnew : StackPc.cost ts.card s'.head s'.next (some new) ≤ 2 * ts.card + 2) :
    ∑ u ∈ ts, s'.cost ts.card u + 1 ≤ ∑ u ∈ ts, s.cost ts.card u + (3 * ts.card + 4) := by
  have hself : s'.cost ts.card t = StackPc.cost ts.card s'.head s'.next (some new) := by
    unfold cost
    rw [hth, Function.update_self]
  refine sum_pay (d := 1) ht (fun u _ hu => ?_) (by omega)
  unfold cost
  rw [hth, hhead, Function.update_of_ne hu]
  exact StackPc.cost_links _

theorem next_relink (s : LockFreeSPSCStack T) (a b : ℕ) :
    ((s.relink a).cell b).next = s.next b ∨ ((s.relink a).cell b).next = s.head := by
  by_cases hb : b = a
  · subst hb
    exact .inr (congrArg Node.next (Function.update_self b _ s.heap.cell))
  · exact .inl (congrArg Node.next (Function.update_of_ne hb _ s.heap.cell))

/-- The step that points the node of a push at `m_head` makes its exchange hopeful. -/
theorem relink_paid {c : ℕ} {value : T} {a : ℕ} (ht : t ∈ ts)
    (hown : 2 * ts.card + 1 + 1 ≤ s.cost ts.card t + c) :
    ∑ u ∈ ts, ({ s with heap := s.relink a }.goto t (.pushCas value a)).cost ts.card u + 1 ≤
      ∑ u ∈ ts, s.cost ts.card u + c := by
  refine move_paid (some (.pushCas value a)) ht rfl rfl (s.next_relink a) ?_
  have hfresh : (({ s with heap := s.relink a }.goto t (.pushCas value a)).next a) = s.head :=
    congrArg Node.next (Function.update_self a _ s.heap.cell)
  simp only [StackPc.cost, hfresh, if_true]
  exact hown

/-- A look at `m_head` ends a pop or leads it to a node that is still the head. -/
theorem observe_paid {c : ℕ} (ht : t ∈ ts) (hown : 2 * ts.card + 2 + 1 ≤ s.cost ts.card t + c) :
    ∑ u ∈ ts, (s.observe t).cost ts.card u + 1 ≤ ∑ u ∈ ts, s.cost ts.card u + c := by
  cases hhead : s.head with
  | none =>
      rw [observe_none hhead]
      refine move_paid none ht rfl rfl (fun _ => .inl rfl) ?_
      simp only [StackPc.cost]
      omega
  | some a =>
      rw [observe_some hhead]
      refine move_paid (some (.popNext a)) ht rfl rfl (fun _ => .inl rfl) ?_
      simp only [StackPc.cost, hhead, if_true]
      exact hown

theorem advance_paid {spurious : Bool} {pc : StackPc T} (ht : t ∈ ts)
    (hpc : s.threads t = some pc) :
    ∑ u ∈ ts, (s.advance t spurious pc).cost ts.card u + 1 ≤
      ∑ u ∈ ts, s.cost ts.card u + if spurious then 2 else 0 := by
  have hcost : s.cost ts.card t = StackPc.cost ts.card s.head s.next (some pc) := by
    unfold cost
    rw [hpc]
  have hkeep (a : ℕ) : s.next a = s.next a ∨ s.next a = s.head := .inl rfl
  cases pc with
  | pushLoad value a => exact relink_paid ht (by simp only [hcost, StackPc.cost]; omega)
  | pushCas value a =>
      rw [advance]
      split
      next h =>
        rw [h.2]
        refine exchange_paid none ht rfl ?_ (Nat.zero_le _)
        simp only [hcost, StackPc.cost, if_pos h.1]
      next h =>
        refine relink_paid ht ?_
        simp only [hcost, StackPc.cost]
        cases spurious with
        | true => split <;> simp
        | false => rw [if_neg fun hfresh => h ⟨hfresh, rfl⟩]; omega
  | popLoad => exact observe_paid ht (by simp only [hcost, StackPc.cost]; omega)
  | popNext a =>
      refine move_paid (some (.popCas a (s.next a))) ht rfl rfl hkeep ?_
      simp only [hcost, StackPc.cost]
      split <;> omega
  | popCas a next =>
      rw [advance]
      split
      next h =>
        rw [h.2]
        refine exchange_paid (some (.popData a)) ht rfl ?_ (Nat.le_refl _)
        simp only [hcost, StackPc.cost, if_pos h.1]
      next h =>
        refine observe_paid ht ?_
        simp only [hcost, StackPc.cost]
        exact failed_paid h
  | popData a =>
      refine move_paid (some (.popDelete a (s.data a))) ht rfl rfl hkeep ?_
      simp only [hcost, StackPc.cost]
      omega
  | popDelete a result =>
      refine move_paid none ht rfl rfl hkeep ?_
      simp only [hcost, StackPc.cost]
      omega

/-- **Every step is paid for.** -/
theorem step_paid {a : StackAction T} (ha : a.thread ∈ ts) (hs : s.step a = some s') :
    ∑ u ∈ ts, s'.cost ts.card u + 1 ≤ ∑ u ∈ ts, s.cost ts.card u + a.credit ts.card := by
  obtain ⟨t, value, b, rfl, -, -, rfl⟩ | ⟨t, rfl, -, rfl⟩ | ⟨t, spurious, pc, rfl, hpc, rfl⟩ :=
    step_cases hs
  · exact alloc_paid (.pushLoad value b) ha rfl rfl (Nat.le_of_eq rfl)
  · refine move_paid (some .popLoad) ha rfl rfl (fun _ => .inl rfl) ?_
    simp only [StackPc.cost, StackAction.credit, StackAction.isCall, if_true]
    omega
  · exact advance_paid ha hpc

end LockFreeSPSCStack

/-- **The linked stack is lock-free**, although a stale pop may read, and an unlucky allocator may
    reuse, what it likes; and a thread inside a call always has its next step. -/
theorem linked_lock_free (memory : ℕ → Node T) (ts : Finset ℕ) {as : List (StackAction T)}
    (hts : ∀ a ∈ as, a.thread ∈ ts)
    (hrun : (run LockFreeSPSCStack.step (.start memory) as).isSome) :
    (as.length ≤ (3 * ts.card + 4) * as.countP StackAction.isCall +
      2 * as.countP StackAction.isSpurious) ∧
    ∀ (s : LockFreeSPSCStack T) t spurious, s.threads t ≠ none →
      (s.step (.advance t spurious)).isSome = true := by
  refine ⟨?_, fun s t spurious ht => by
    rw [LockFreeSPSCStack.step, Option.isSome_map, Option.isSome_iff_ne_none]
    exact ht⟩
  obtain ⟨s, hs⟩ := Option.isSome_iff_exists.mp hrun
  have hstart : ∑ u ∈ ts, (LockFreeSPSCStack.start memory).cost ts.card u = 0 :=
    sum_eq_zero fun u _ => rfl
  have hpaid := length_le_of_credit (fun s => ∑ u ∈ ts, s.cost ts.card u)
    (StackAction.credit ts.card)
    (fun s a s' (ha : a.thread ∈ ts) hs => LockFreeSPSCStack.step_paid ha hs) hs hts
  have hcredits := sum_credit_le (StackAction.isCall (T := T)) StackAction.isSpurious
    (3 * ts.card + 4) 2 as
  simp only [hstart] at hpaid
  exact (Nat.le_add_left _ _).trans (hpaid.trans ((Nat.zero_add _).trans_le hcredits))

/-- Two pops load one node; the slower one fails, looks again and finds the stack empty. -/
def overtaken : List (StackAction ℕ) :=
  [.push 0 7 100, .advance 0 false, .advance 0 true, .advance 0 false, .pop 1, .pop 2,
    .advance 1 false, .advance 2 false, .advance 1 false, .advance 2 false, .advance 1 false,
    .advance 2 false, .advance 1 false, .advance 1 false]

theorem linked_lock_free_overtaken :
    (run LockFreeSPSCStack.step (.start fun _ => ⟨0, none⟩) overtaken).isSome ∧
      overtaken.length ≤ (3 * ({0, 1, 2} : Finset ℕ).card + 4) *
        overtaken.countP StackAction.isCall + 2 * overtaken.countP StackAction.isSpurious :=
  ⟨by decide +kernel, (linked_lock_free (fun _ => ⟨0, none⟩) {0, 1, 2} (by decide)
    (by decide +kernel)).1⟩

end Linked

end HseMultithreading.LockFree
