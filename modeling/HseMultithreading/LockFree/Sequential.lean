/-
  File:      HseMultithreading/LockFree/Sequential.lean
  Subject:   The three stacks of `lock_free/spsc_stack.cpp` under calls that do not overlap: a
             locked `std::stack`, nodes linked from an atomic `m_head`, an array below an atomic
             `m_head`.

  A call is made by any thread and runs alone until it returns; `compare_exchange_weak` may fail
  spuriously, a finite number of times in every call. `m_mtx` of `SPSCStack` is free at every call.

  * `SPSCStack`, `SPSCStack.call` -- the locked stack; `SPSCStack.boundedCall` -- the same stack
    with a bound on its size.
  * `LockFreeSPSCStack.call`, `Buffered.call` -- one call of the other two: steps of the machines of
    `LockFree/Linked` and `LockFree/Buffered`.
  * **`stacks_agree`** -- every call returns; the linked stack answers as the locked one, and the
    array answers as the bounded one, which is the locked one on the calls that are not refused.
-/
import Mathlib.Algebra.Order.BigOperators.Group.List
import Mathlib.Algebra.Order.Group.Nat
import Mathlib.Data.Finset.Lattice.Fold
import Mathlib.Order.Lattice.Nat
import HseMultithreading.Lib.Calls
import HseMultithreading.LockFree.Buffered
import HseMultithreading.LockFree.Linked

namespace HseMultithreading.LockFree

open StepSystem LinkedHeap CallRule

/-! ## 1. Calls -/

inductive Op (T : Type*) where
  | push (value : T)
  | pop

/-- What a call returns. A `Push` without a return value counts as accepted. -/
inductive Answer (T : Type*) where
  | pushed (accepted : Bool)
  | popped (result : Option T)

/-- A call of thread `thread`; `spurious` says which of its first steps fail spuriously, if they are
    a `compare_exchange_weak`. -/
structure Call (T : Type*) where
  thread : ℕ
  op : Op T
  spurious : List Bool

section Stacks

variable {T : Type*}

/-- `m_stack`, the top first. -/
structure SPSCStack (T : Type*) where
  stack : List T

namespace SPSCStack

def push (s : SPSCStack T) (value : T) : SPSCStack T := ⟨value :: s.stack⟩

def pop (s : SPSCStack T) : Option T × SPSCStack T :=
  match s.stack with
  | [] => (none, s)
  | top :: rest => (some top, ⟨rest⟩)

def call (s : SPSCStack T) : Op T → SPSCStack T × Answer T
  | .push value => (s.push value, .pushed true)
  | .pop => (s.pop.2, .popped s.pop.1)

/-- The stack with at most `capacity` elements. -/
def boundedCall (capacity : ℕ) (s : SPSCStack T) : Op T → SPSCStack T × Answer T
  | .push value =>
    if s.stack.length = capacity then (s, .pushed false) else (s.push value, .pushed true)
  | .pop => (s.pop.2, .popped s.pop.1)

theorem pop_eq (s : SPSCStack T) : s.pop = (s.stack.head?, ⟨s.stack.tail⟩) := by
  obtain ⟨stack⟩ := s
  cases stack <;> rfl

end SPSCStack

/-- `operator new`: some address that is not in use, chosen from all that has happened. -/
structure Allocator (T : Type*) where
  pick : LockFreeSPSCStack T → ℕ
  fresh : ∀ s, pick s ∉ s.heap.live

/-- Above everything that is in use. -/
instance : Inhabited (Allocator T) where
  default :=
    { pick := fun s => s.heap.live.sup id + 1
      fresh := fun _ h => absurd (Finset.le_sup (f := id) h) (Nat.not_succ_le_self _) }

/-- A call of `Push` or `Pop` of the linked stack. -/
def LockFreeSPSCStack.call (allocator : Allocator T) (fuel : ℕ) (s : LockFreeSPSCStack T)
    (c : Call T) : Option (LockFreeSPSCStack T × Answer T) :=
  match c.op with
  | .push value =>
    ((s.step (.push c.thread value (allocator.pick s))).bind
      (solo (·.threads c.thread) (·.advance c.thread) fuel c.spurious)).map
      fun s' => (s', .pushed true)
  | .pop =>
    ((s.step (.pop c.thread)).bind
      (solo (·.threads c.thread) (·.advance c.thread) fuel c.spurious)).map
      fun s' => (s', .popped ((s'.results c.thread).drop (s.results c.thread).length).head?.join)

/-- A call of `Push` or `Pop` of the array. -/
def Buffered.call (capacity fuel : ℕ) (s : Buffered T) (c : Call T) :
    Option (Buffered T × Answer T) :=
  match c.op with
  | .push value =>
    ((s.step capacity (.push c.thread value)).bind
      (solo (·.threads c.thread) (·.advance capacity c.thread) fuel c.spurious)).map
      fun s' => (s', .pushed (decide (s.pushed.length < s'.pushed.length)))
  | .pop =>
    ((s.step capacity (.pop c.thread)).bind
      (solo (·.threads c.thread) (·.advance capacity c.thread) fuel c.spurious)).map
      fun s' => (s', .popped (s'.popped.drop s.popped.length).head?)

end Stacks

/-! ## 2. The linked stack -/

section Linked

variable {T : Type*}

/-- What the call has done when it returns. -/
def LockFreeSPSCStack.Done (before s : LockFreeSPSCStack T) (t : ℕ) : Op T → Prop
  | .push value => s.stack = value :: before.stack ∧ s.results t = before.results t
  | .pop => s.stack = before.stack.tail ∧
      s.results t = before.results t ++ [before.stack.head?]

/-- How far the call has got: nobody else moves `m_head`. -/
def LockFreeSPSCStack.Progress (before s : LockFreeSPSCStack T) (t : ℕ) (op : Op T) :
    Option (StackPc T) → Prop
  | none => before.Done s t op
  | some (.pushLoad value _) => op = .push value ∧ s.stack = before.stack ∧
      s.results t = before.results t
  | some (.pushCas value a) => op = .push value ∧ s.stack = before.stack ∧
      s.results t = before.results t ∧ s.head = s.next a
  | some .popLoad => op = .pop ∧ s.stack = before.stack ∧ s.results t = before.results t
  | some (.popNext a) | some (.popCas a _) => op = .pop ∧ s.stack = before.stack ∧
      s.results t = before.results t ∧ s.head = some a
  | some (.popData a) => op = .pop ∧ s.stack = before.stack.tail ∧
      s.results t = before.results t ∧ before.stack.head? = some (s.data a)
  | some (.popDelete _ result) => op = .pop ∧ s.stack = before.stack.tail ∧
      s.results t = before.results t ∧ before.stack.head? = some result

/-- **Thread `t` is inside a call, alone.** -/
structure LockFreeSPSCStack.Solo (before : LockFreeSPSCStack T) (t : ℕ) (op : Op T)
    (s : LockFreeSPSCStack T) : Prop where
  inv : ∃ l, StackInv t s l
  others : ∀ t', t' ≠ t → s.threads t' = none
  progress : before.Progress s t op (s.threads t)

/-- The steps a call has left, when `flags` are to come. A pop that fails at its exchange reads
    `next` again. -/
def StackPc.left : StackPc T → List Bool → ℕ
  | .pushLoad _ _, flags => 2 * flags.length + 1
  | .pushCas _ _, flags => 2 * flags.length
  | .popLoad, flags => 2 * flags.length + 4
  | .popNext _, flags => 2 * flags.length + 3
  | .popCas _ _, flags => 2 * flags.length + 2
  | .popData _, _ => 1
  | .popDelete _ _, _ => 0

variable {before s s' : LockFreeSPSCStack T} {t : ℕ} {op : Op T} {flags : List Bool}

/-- A flag that is set is one of the list. -/
theorem length_of_flag (h : flags.headD false = true) :
    flags.length = flags.tail.length + 1 := by
  cases flags with
  | nil => cases h
  | cons flag flags => rfl

/-- The state after a step of the call. -/
theorem LockFreeSPSCStack.Solo.of_step (h : before.Solo t op s) (new : Option (StackPc T))
    (hinv : ∃ l, StackInv t s' l) (hthr : s'.threads = Function.update s.threads t new)
    {n : ℕ} (hprogress : before.Progress s' t op new)
    (hleft : ∀ p, new = some p → p.left flags.tail < n) :
    before.Solo t op s' ∧ ∀ p, s'.threads t = some p → p.left flags.tail < n := by
  obtain ⟨hself, hothers⟩ := alone_update h.others hthr
  exact ⟨⟨hinv, hothers, by rw [hself]; exact hprogress⟩, fun p hp => hleft p (hself.symm.trans hp)⟩

/-- The pop looks at `m_head`. -/
theorem LockFreeSPSCStack.Solo.observed (h : before.Solo t .pop s) {n : ℕ}
    (hinv : ∃ l, StackInv t (s.observe t) l) (hstack : s.stack = before.stack)
    (hres : s.results t = before.results t) (hn : 2 * flags.tail.length + 3 < n) :
    before.Solo t .pop (s.observe t) ∧
      ∀ p, (s.observe t).threads t = some p → p.left flags.tail < n := by
  cases hhead : s.head with
  | none =>
      obtain ⟨l, hl⟩ := h.inv
      have hempty : before.stack = [] := hstack.symm.trans (hl.represents.stack_eq_nil hhead)
      rw [LockFreeSPSCStack.observe_none hhead] at hinv ⊢
      refine h.of_step none hinv rfl ⟨?_, ?_⟩ fun p hp => by cases hp
      · rw [hempty]
        exact hstack.trans hempty
      · show Function.update s.results t (s.results t ++ [none]) t = _
        rw [Function.update_self, hres, hempty]
        rfl
  | some a =>
      rw [LockFreeSPSCStack.observe_some hhead] at hinv ⊢
      refine h.of_step (some (.popNext a)) hinv rfl ⟨rfl, hstack, hres, hhead⟩ fun p hp => ?_
      obtain rfl := Option.some.inj hp
      exact hn

/-- **A step of a call that runs alone**: it comes nearer to its end. -/
theorem LockFreeSPSCStack.Solo.step (h : before.Solo t op s) {pc : StackPc T}
    (hpc : s.threads t = some pc) :
    before.Solo t op (s.advance t (flags.headD false) pc) ∧
      ∀ p, (s.advance t (flags.headD false) pc).threads t = some p →
        p.left flags.tail < pc.left flags := by
  obtain ⟨l, hl⟩ := h.inv
  have hinv := hl.advance (flags.headD false) hpc
  have hprogress := h.progress
  rw [hpc] at hprogress
  have htail : flags.tail.length ≤ flags.length := by
    rw [List.length_tail]
    exact Nat.sub_le _ _
  cases pc with
  | pushLoad value a =>
      obtain ⟨hop, hstack, hres⟩ := hprogress
      refine h.of_step (some (.pushCas value a)) hinv rfl ⟨hop, hstack, hres, ?_⟩
        fun p hp => ?_
      · show s.head = (Function.update s.heap.cell a _ a).next
        rw [Function.update_self]
      · obtain rfl := Option.some.inj hp
        exact Nat.lt_succ_of_le (Nat.mul_le_mul_left 2 htail)
  | pushCas value a =>
      obtain ⟨rfl, hstack, hres, hhead⟩ := hprogress
      cases hflag : flags.headD false with
      | false =>
          rw [hflag] at hinv
          simp only [LockFreeSPSCStack.advance, hhead, and_self, if_true] at hinv ⊢
          refine h.of_step none hinv rfl ⟨?_, hres⟩ fun p hp => by cases hp
          show abstractStack (s.exchanges ++ [Exchange.push value]) = _
          rw [abstractStack_push, ← hstack]
          rfl
      | true =>
          rw [hflag] at hinv
          have hlen := length_of_flag hflag
          simp only [LockFreeSPSCStack.advance, Bool.true_eq_false, and_false, if_false] at hinv ⊢
          refine h.of_step (some (.pushCas value a)) hinv rfl ⟨rfl, hstack, hres, ?_⟩
            fun p hp => ?_
          · show s.head = (Function.update s.heap.cell a _ a).next
            rw [Function.update_self]
          · obtain rfl := Option.some.inj hp
            show 2 * flags.tail.length < 2 * flags.length
            omega
  | popLoad =>
      obtain ⟨rfl, hstack, hres⟩ := hprogress
      exact h.observed hinv hstack hres (by simp only [StackPc.left]; omega)
  | popNext a =>
      obtain ⟨rfl, hstack, hres, hhead⟩ := hprogress
      refine h.of_step (some (.popCas a (s.next a))) hinv rfl ⟨rfl, hstack, hres, hhead⟩
        fun p hp => ?_
      obtain rfl := Option.some.inj hp
      show 2 * flags.tail.length + 2 < 2 * flags.length + 3
      omega
  | popCas a next =>
      obtain ⟨rfl, hstack, hres, hhead⟩ := hprogress
      cases hflag : flags.headD false with
      | false =>
          obtain ⟨k, rfl, -, htop⟩ := hl.represents.top hhead
          rw [hstack] at htop
          rw [hflag] at hinv
          simp only [LockFreeSPSCStack.advance, hhead, and_self, if_true] at hinv ⊢
          refine h.of_step (some (.popData a)) hinv rfl ⟨rfl, ?_, hres, ?_⟩ fun p hp => ?_
          · show abstractStack (s.exchanges ++ [Exchange.pop]) = _
            rw [abstractStack_pop, ← hstack]
            rfl
          · rw [htop]
            rfl
          · obtain rfl := Option.some.inj hp
            exact Nat.lt_add_left _ (Nat.lt_succ_self 1)
      | true =>
          have hlen := length_of_flag hflag
          rw [hflag] at hinv
          simp only [LockFreeSPSCStack.advance, Bool.true_eq_false, and_false, if_false] at hinv ⊢
          exact h.observed hinv hstack hres (by simp only [StackPc.left]; omega)
  | popData a =>
      obtain ⟨rfl, hstack, hres, htop⟩ := hprogress
      refine h.of_step (some (.popDelete a (s.data a))) hinv rfl ⟨rfl, hstack, hres, htop⟩
        fun p hp => ?_
      obtain rfl := Option.some.inj hp
      exact Nat.zero_lt_one
  | popDelete a result =>
      obtain ⟨rfl, hstack, hres, htop⟩ := hprogress
      refine h.of_step none hinv rfl ⟨hstack, ?_⟩ fun p hp => by cases hp
      show Function.update s.results t (s.results t ++ [some result]) t = _
      rw [Function.update_self, hres, htop]

/-- **Between calls**: no thread is inside one, and the stack is `q`. -/
structure LockFreeSPSCStack.Rests (s : LockFreeSPSCStack T) (q : SPSCStack T) : Prop where
  idle : ∀ t, s.threads t = none
  inv : ∀ popper, ∃ l, StackInv popper s l
  stack : s.stack = q.stack

/-- Between calls it does not matter which thread may pop. -/
theorem StackInv.of_idle {popper : ℕ} {l : List ℕ} (h : StackInv popper s l)
    (hidle : ∀ t, s.threads t = none) (popper' : ℕ) : StackInv popper' s l where
  chain := h.chain
  values := h.values
  sound := h.sound
  owned := h.owned
  fits t := by
    have hfits := h.fits t
    rw [hidle t] at hfits ⊢
    exact hfits

theorem LockFreeSPSCStack.rests_start (memory : ℕ → Node T) :
    (LockFreeSPSCStack.start memory).Rests ⟨[]⟩ :=
  ⟨fun _ => rfl, fun popper => ⟨[], stackInv_start popper memory⟩, rfl⟩

/-- A call that has started returns, when there is fuel for two steps a flag and five more. -/
theorem LockFreeSPSCStack.Solo.returns {fuel : ℕ} (h : before.Solo t op s)
    (hfuel : 2 * flags.length + 5 ≤ fuel) :
    ∃ s', solo (·.threads t) (·.advance t) fuel flags s = some s' ∧ (∀ t, s'.threads t = none) ∧
      (∀ popper, ∃ l, StackInv popper s' l) ∧ before.Done s' t op := by
  have hleft : ∀ p : StackPc T, p.left flags < 2 * flags.length + 5 := by
    intro p
    cases p <;> simp only [StackPc.left] <;> omega
  obtain ⟨s', hs', hsolo, hnone⟩ := solo_of_measure (I := before.Solo t op) (·.threads t)
    (·.advance t) StackPc.left (fun _ _ _ hI hp => LockFreeSPSCStack.Solo.step hI hp) h
    fun p _ => Nat.lt_of_lt_of_le (hleft p) hfuel
  have hidle : ∀ t', s'.threads t' = none := idle_of_alone hsolo.others hnone
  obtain ⟨l, hl⟩ := hsolo.inv
  have hdone := hsolo.progress
  rw [hnone] at hdone
  exact ⟨s', hs', hidle, fun popper => ⟨l, hl.of_idle hidle popper⟩, hdone⟩

/-- **A call of the linked stack answers as the locked stack does.** -/
theorem LockFreeSPSCStack.Rests.call {q : SPSCStack T} (h : s.Rests q) (allocator : Allocator T)
    {fuel : ℕ} {c : Call T} (hfuel : 2 * c.spurious.length + 5 ≤ fuel) :
    ∃ s', s.call allocator fuel c = some (s', (q.call c.op).2) ∧ s'.Rests (q.call c.op).1 := by
  obtain ⟨t, op, spurious⟩ := c
  obtain ⟨l, hl⟩ := h.inv t
  -- The call has started, and everything is as before.
  have hstart : ∀ {r : LockFreeSPSCStack T} {pc : StackPc T},
      r.threads = Function.update s.threads t (some pc) → (∃ l, StackInv t r l) →
      s.Progress r t op (some pc) → s.Solo t op r := by
    intro r pc hthr hinv hprogress
    obtain ⟨hself, hothers⟩ := alone_update (fun t' _ => h.idle t') hthr
    exact ⟨hinv, hothers, by rw [hself]; exact hprogress⟩
  cases op with
  | push value =>
      have hfresh := allocator.fresh s
      have hstep : s.step (.push t value (allocator.pick s)) =
          some ({ s with heap := s.heap.alloc (allocator.pick s) ⟨value, none⟩ }.goto t
            (.pushLoad value (allocator.pick s))) := by
        simp only [LockFreeSPSCStack.step, h.idle t, if_neg hfresh]
      have hsolo : s.Solo t (.push value)
          ({ s with heap := s.heap.alloc (allocator.pick s) ⟨value, none⟩ }.goto t
            (.pushLoad value (allocator.pick s))) :=
        hstart rfl ⟨l, hl.newNode (h.idle t) hfresh value⟩ ⟨rfl, rfl, rfl⟩
      obtain ⟨s', hs', hidle, hinv, hstack, -⟩ := hsolo.returns hfuel
      refine ⟨s', ?_, hidle, hinv, ?_⟩
      · simp only [LockFreeSPSCStack.call, hstep, Option.bind_some, hs', Option.map_some]
        rfl
      · rw [hstack, h.stack]
        rfl
  | pop =>
      have hstep : s.step (.pop t) = some (s.goto t .popLoad) := by
        simp only [LockFreeSPSCStack.step, h.idle t]
      have hsolo : s.Solo t .pop (s.goto t .popLoad) := by
        have hfits := hl.fits t
        rw [h.idle t] at hfits
        exact hstart rfl
          ⟨l, hl.moves .popLoad (LockFreeSPSCStack.holds_of (h.idle t)) ⟨rfl, hfits⟩⟩
          ⟨rfl, rfl, rfl⟩
      obtain ⟨s', hs', hidle, hinv, hstack, hres⟩ := hsolo.returns hfuel
      refine ⟨s', ?_, hidle, hinv, ?_⟩
      · simp only [LockFreeSPSCStack.call, hstep, Option.bind_some, hs', Option.map_some, hres,
          List.drop_left, SPSCStack.call, SPSCStack.pop_eq, h.stack, List.head?_cons,
          Option.join_some]
      · rw [hstack, h.stack, SPSCStack.call, SPSCStack.pop_eq]

end Linked

/-! ## 3. The array -/

section Array

variable {T : Type*}

/-- The cells below `m_head` hold the elements, the top in the last of them. -/
def Cells (buffer : ℤ → T) : List T → Prop
  | [] => True
  | top :: rest => buffer rest.length = top ∧ Cells buffer rest

theorem Cells.update {buffer : ℤ → T} {stack : List T} (h : Cells buffer stack) {i : ℤ}
    (hi : (stack.length : ℤ) ≤ i) (value : T) : Cells (Function.update buffer i value) stack := by
  induction stack with
  | nil => trivial
  | cons top rest ih =>
      rw [List.length_cons] at hi
      refine ⟨?_, ih h.2 (by omega)⟩
      rw [Function.update_of_ne (by omega)]
      exact h.1

/-- `m_head` is the number of elements, and the cells below it hold them. -/
def Buffered.Holds (s : Buffered T) (stack : List T) : Prop :=
  s.head = stack.length ∧ Cells s.buffer stack

/-- What the call has done when it returns. -/
def Buffered.Done (capacity : ℕ) (stack : List T) (before s : Buffered T) : Op T → Prop
  | .push value =>
      if stack.length = capacity then s.Holds stack ∧ s.pushed = before.pushed
      else s.Holds (value :: stack) ∧ s.pushed = before.pushed ++ [value]
  | .pop => s.Holds stack.tail ∧ s.popped = before.popped ++ stack.head?.toList

/-- How far the call has got: nobody else moves `m_head`. -/
def Buffered.Progress (capacity : ℕ) (stack : List T) (before s : Buffered T) (op : Op T) :
    Option (BufferedPc T) → Prop
  | none => before.Done capacity stack s op
  | some (.pushLoad value) => op = .push value ∧ s.Holds stack ∧ s.pushed = before.pushed
  | some (.pushCas value top) => op = .push value ∧ s.Holds stack ∧ s.pushed = before.pushed ∧
      s.head = top ∧ stack.length ≠ capacity
  | some (.write value top) => op = .push value ∧ s.head = stack.length + 1 ∧
      Cells s.buffer stack ∧ s.pushed = before.pushed ∧ top = stack.length ∧
      stack.length ≠ capacity
  | some .popLoad => op = .pop ∧ s.Holds stack ∧ s.popped = before.popped
  | some (.popCas top) => op = .pop ∧ s.Holds stack ∧ s.popped = before.popped ∧ s.head = top ∧
      stack ≠ []
  | some (.read i) => op = .pop ∧ s.popped = before.popped ∧
      ∃ top rest, stack = top :: rest ∧ i = rest.length ∧ s.head = rest.length ∧
        Cells s.buffer stack

/-- **Thread `t` is inside a call, alone.** -/
structure Buffered.Solo (capacity : ℕ) (stack : List T) (before : Buffered T) (t : ℕ) (op : Op T)
    (s : Buffered T) : Prop where
  others : ∀ t', t' ≠ t → s.threads t' = none
  progress : before.Progress capacity stack s op (s.threads t)

/-- The steps a call has left, when `flags` are to come. A call that fails at its exchange loads
    `m_head` again. -/
def BufferedPc.left : BufferedPc T → List Bool → ℕ
  | .pushLoad _, flags | .popLoad, flags => 2 * flags.length + 2
  | .pushCas _ _, flags | .popCas _, flags => 2 * flags.length + 1
  | .write _ _, _ | .read _, _ => 0

variable {capacity : ℕ} {stack : List T} {before s s' : Buffered T} {t : ℕ} {op : Op T}
  {flags : List Bool}

/-- The state after a step of the call. -/
theorem Buffered.Solo.of_step (h : before.Solo capacity stack t op s)
    (new : Option (BufferedPc T)) (hthr : s'.threads = Function.update s.threads t new) {n : ℕ}
    (hprogress : before.Progress capacity stack s' op new)
    (hleft : ∀ p, new = some p → p.left flags.tail < n) :
    before.Solo capacity stack t op s' ∧ ∀ p, s'.threads t = some p → p.left flags.tail < n := by
  obtain ⟨hself, hothers⟩ := alone_update h.others hthr
  exact ⟨⟨hothers, by rw [hself]; exact hprogress⟩, fun p hp => hleft p (hself.symm.trans hp)⟩

/-- **A step of a call that runs alone**: it comes nearer to its end. -/
theorem Buffered.Solo.step (h : before.Solo capacity stack t op s) {pc : BufferedPc T}
    (hpc : s.threads t = some pc) :
    before.Solo capacity stack t op (s.advance capacity t (flags.headD false) pc) ∧
      ∀ p, (s.advance capacity t (flags.headD false) pc).threads t = some p →
        p.left flags.tail < pc.left flags := by
  have hprogress := h.progress
  rw [hpc] at hprogress
  have htail : flags.tail.length ≤ flags.length := by
    rw [List.length_tail]
    exact Nat.sub_le _ _
  cases pc with
  | pushLoad value =>
      obtain ⟨rfl, hholds, hpushed⟩ := hprogress
      simp only [Buffered.advance]
      split
      next hfull =>
        have hlen : stack.length = capacity := Int.ofNat.inj (hholds.1.symm.trans hfull)
        refine h.of_step none rfl ?_ fun p hp => by cases hp
        show if stack.length = capacity then _ else _
        rw [if_pos hlen]
        exact ⟨hholds, hpushed⟩
      next hroom =>
        have hlen : stack.length ≠ capacity := fun e => hroom (hholds.1.trans (congrArg _ e))
        refine h.of_step (some (.pushCas value s.head)) rfl ⟨rfl, hholds, hpushed, rfl, hlen⟩
          fun p hp => ?_
        obtain rfl := Option.some.inj hp
        show 2 * flags.tail.length + 1 < 2 * flags.length + 2
        omega
  | pushCas value top =>
      obtain ⟨rfl, hholds, hpushed, htop, hlen⟩ := hprogress
      cases hflag : flags.headD false with
      | false =>
          simp only [Buffered.advance, htop, and_self, if_true]
          refine h.of_step (some (.write value top)) rfl
            ⟨rfl, ?_, hholds.2, hpushed, htop.symm.trans hholds.1, hlen⟩ fun p hp => ?_
          · show top + 1 = _
            rw [← htop, hholds.1]
          · obtain rfl := Option.some.inj hp
            exact Nat.succ_pos _
      | true =>
          have hshort := length_of_flag hflag
          simp only [Buffered.advance, Bool.true_eq_false, and_false, if_false]
          refine h.of_step (some (.pushLoad value)) rfl ⟨rfl, hholds, hpushed⟩ fun p hp => ?_
          obtain rfl := Option.some.inj hp
          show 2 * flags.tail.length + 2 < 2 * flags.length + 1
          omega
  | write value top =>
      obtain ⟨rfl, hhead, hcells, hpushed, rfl, hlen⟩ := hprogress
      refine h.of_step none rfl ?_ fun p hp => by cases hp
      show if stack.length = capacity then _ else _
      rw [if_neg hlen]
      refine ⟨⟨hhead, ?_, hcells.update (Int.le_refl _) value⟩, ?_⟩
      · exact Function.update_self _ _ _
      · show s.pushed ++ [value] = _
        rw [hpushed]
  | popLoad =>
      obtain ⟨rfl, hholds, hpopped⟩ := hprogress
      simp only [Buffered.advance]
      split
      next hempty =>
        have hnil : stack = [] :=
          List.eq_nil_of_length_eq_zero (Int.ofNat.inj (hholds.1.symm.trans hempty))
        refine h.of_step none rfl ⟨?_, ?_⟩ fun p hp => by cases hp
        · rw [hnil] at hholds ⊢
          exact hholds
        · rw [hnil]
          exact hpopped.trans (List.append_nil _).symm
      next hsome =>
        have hne : stack ≠ [] := fun e => hsome (by rw [hholds.1, e]; rfl)
        refine h.of_step (some (.popCas s.head)) rfl ⟨rfl, hholds, hpopped, rfl, hne⟩
          fun p hp => ?_
        obtain rfl := Option.some.inj hp
        show 2 * flags.tail.length + 1 < 2 * flags.length + 2
        omega
  | popCas top =>
      obtain ⟨rfl, hholds, hpopped, htop, hne⟩ := hprogress
      cases hflag : flags.headD false with
      | false =>
          obtain ⟨x, rest, rfl⟩ := List.exists_cons_of_ne_nil hne
          have hlast : top - 1 = rest.length := by
            rw [← htop, hholds.1, List.length_cons]
            omega
          simp only [Buffered.advance, htop, and_self, if_true]
          refine h.of_step (some (.read (top - 1))) rfl
            ⟨rfl, hpopped, x, rest, rfl, hlast, hlast, hholds.2⟩ fun p hp => ?_
          obtain rfl := Option.some.inj hp
          exact Nat.succ_pos _
      | true =>
          have hshort := length_of_flag hflag
          simp only [Buffered.advance, Bool.true_eq_false, and_false, if_false]
          refine h.of_step (some .popLoad) rfl ⟨rfl, hholds, hpopped⟩ fun p hp => ?_
          obtain rfl := Option.some.inj hp
          show 2 * flags.tail.length + 2 < 2 * flags.length + 1
          omega
  | read i =>
      obtain ⟨rfl, hpopped, x, rest, rfl, rfl, hhead, hcells⟩ := hprogress
      refine h.of_step none rfl ⟨⟨hhead, hcells.2⟩, ?_⟩ fun p hp => by cases hp
      show s.popped ++ [s.buffer rest.length] = _
      rw [hpopped, hcells.1]
      rfl

/-- **Between calls**: no thread is inside one, and the elements are those of `q`. -/
structure Buffered.Rests (s : Buffered T) (q : SPSCStack T) : Prop where
  idle : ∀ t, s.threads t = none
  holds : s.Holds q.stack

/-- A call that has started returns, when there is fuel for two steps a flag and three more. -/
theorem Buffered.Solo.returns {fuel : ℕ} (h : before.Solo capacity stack t op s)
    (hfuel : 2 * flags.length + 3 ≤ fuel) :
    ∃ s', solo (·.threads t) (·.advance capacity t) fuel flags s = some s' ∧
      (∀ t, s'.threads t = none) ∧ before.Done capacity stack s' op := by
  have hleft : ∀ p : BufferedPc T, p.left flags < 2 * flags.length + 3 := by
    intro p
    cases p <;> simp only [BufferedPc.left] <;> omega
  obtain ⟨s', hs', hsolo, hnone⟩ := solo_of_measure (I := before.Solo capacity stack t op)
    (·.threads t) (·.advance capacity t) BufferedPc.left
    (fun _ _ _ hI hp => Buffered.Solo.step hI hp) h fun p _ => Nat.lt_of_lt_of_le (hleft p) hfuel
  have hdone := hsolo.progress
  rw [hnone] at hdone
  exact ⟨s', hs', idle_of_alone hsolo.others hnone, hdone⟩

/-- **A call of the array answers as the bounded stack does.** -/
theorem Buffered.Rests.call {q : SPSCStack T} (h : s.Rests q) {fuel : ℕ} {c : Call T}
    (hfuel : 2 * c.spurious.length + 3 ≤ fuel) :
    ∃ s', s.call capacity fuel c = some (s', (q.boundedCall capacity c.op).2) ∧
      s'.Rests (q.boundedCall capacity c.op).1 := by
  obtain ⟨t, op, spurious⟩ := c
  have hstart : ∀ pc : BufferedPc T, s.Progress capacity q.stack (s.goto t pc) op (some pc) →
      s.Solo capacity q.stack t op (s.goto t pc) := by
    intro pc hprogress
    have hthr : (s.goto t pc).threads = Function.update s.threads t (some pc) := rfl
    obtain ⟨hself, hothers⟩ := alone_update (fun t' _ => h.idle t') hthr
    exact ⟨hothers, by rw [hself]; exact hprogress⟩
  cases op with
  | push value =>
      obtain ⟨s', hs', hidle, hdone⟩ :=
        (hstart (.pushLoad value) ⟨rfl, h.holds, rfl⟩).returns hfuel
      have hcall : s.call capacity fuel ⟨t, .push value, spurious⟩ =
          some (s', .pushed (decide (s.pushed.length < s'.pushed.length))) := by
        simp only [Buffered.call, Buffered.step, h.idle t, Option.bind_some, hs', Option.map_some]
      refine ⟨s', ?_, hidle, ?_⟩ <;> by_cases hfull : q.stack.length = capacity <;>
        simp only [Buffered.Done, hfull, if_true, if_false] at hdone <;>
        obtain ⟨hholds, hpushed⟩ := hdone
      · rw [hcall, hpushed, SPSCStack.boundedCall, if_pos hfull]
        simp
      · rw [hcall, hpushed, SPSCStack.boundedCall, if_neg hfull]
        simp
      · rw [SPSCStack.boundedCall, if_pos hfull]
        exact hholds
      · rw [SPSCStack.boundedCall, if_neg hfull]
        exact hholds
  | pop =>
      obtain ⟨s', hs', hidle, hholds, hpopped⟩ :=
        (hstart .popLoad ⟨rfl, h.holds, rfl⟩).returns hfuel
      refine ⟨s', ?_, hidle, ?_⟩
      · simp only [Buffered.call, Buffered.step, h.idle t, Option.bind_some, hs', Option.map_some,
          hpopped, List.drop_left, SPSCStack.boundedCall, SPSCStack.pop_eq]
        cases q.stack <;> rfl
      · rw [SPSCStack.boundedCall, SPSCStack.pop_eq]
        exact hholds

end Array

/-! ## 4. The three stacks answer alike -/

section Main

variable {T : Type*}

/-- The call was not refused. -/
def Answer.accepts : Answer T → Bool
  | .pushed accepted => accepted
  | .popped _ => true

/-- The calls that were not refused. -/
def kept {γ : Type*} (calls : List γ) (replies : List (Answer T)) : List γ :=
  ((calls.zip replies).filter fun p => p.2.accepts).map Prod.fst

theorem kept_cons {γ : Type*} (c : γ) (calls : List γ) (reply : Answer T)
    (replies : List (Answer T)) :
    kept (c :: calls) (reply :: replies) =
      if reply.accepts then c :: kept calls replies else kept calls replies := by
  unfold kept
  rw [List.zip_cons_cons, List.filter_cons]
  split <;> rfl

theorem kept_map {γ δ : Type*} (f : γ → δ) (calls : List γ) (replies : List (Answer T)) :
    (kept calls replies).map f = kept (calls.map f) replies := by
  unfold kept
  rw [List.zip_map_left, List.filter_map, List.map_map, List.map_map]
  rfl

/-- **The refused pushes of the bounded stack can be left out**, and without them there is no bound
    to be seen. -/
theorem bounded_kept (capacity : ℕ) (ops : List (Op T)) : ∀ q : SPSCStack T,
    totalAnswers SPSCStack.call q
        (kept ops (totalAnswers (SPSCStack.boundedCall capacity) q ops)) =
      (totalAnswers (SPSCStack.boundedCall capacity) q ops).filter Answer.accepts ∧
    totalAnswers (SPSCStack.boundedCall capacity) q
        (kept ops (totalAnswers (SPSCStack.boundedCall capacity) q ops)) =
      (totalAnswers (SPSCStack.boundedCall capacity) q ops).filter Answer.accepts := by
  induction ops with
  | nil => exact fun _ => ⟨rfl, rfl⟩
  | cons op ops ih =>
      intro q
      rw [totalAnswers, kept_cons]
      -- A call of the bounded stack is refused, or it is one of the stack itself.
      have hcall : (q.boundedCall capacity op).2.accepts = false ∧
            (q.boundedCall capacity op).1 = q ∨
          (q.boundedCall capacity op).2.accepts = true ∧
            q.boundedCall capacity op = q.call op := by
        cases op with
        | push value =>
            rw [SPSCStack.boundedCall]
            split
            · exact .inl ⟨rfl, rfl⟩
            · exact .inr ⟨rfl, rfl⟩
        | pop => exact .inr ⟨rfl, rfl⟩
      rcases hcall with ⟨hno, hsame⟩ | ⟨hyes, hcall⟩
      · rw [List.filter_cons_of_neg (by rw [hno]; nofun), hno, hsame]
        exact ih q
      · rw [List.filter_cons_of_pos hyes, hyes]
        obtain ⟨h1, h2⟩ := ih (q.boundedCall capacity op).1
        refine ⟨?_, ?_⟩
        · rw [if_pos rfl, totalAnswers, ← h1, hcall]
        · rw [if_pos rfl, totalAnswers, h2]

/-- **The three stacks are interchangeable**: every call returns; the linked stack answers as the
    locked one; the array answers as the locked one with a bound, its refused pushes leave no trace,
    and its other answers are those of the locked stack on the calls that were not refused. -/
theorem stacks_agree [Inhabited T] (allocator : Allocator T) (memory : ℕ → Node T) (capacity : ℕ)
    (calls : List (Call T)) :
    ∃ n, ∀ fuel, n ≤ fuel →
      answers (LockFreeSPSCStack.call allocator fuel) (.start memory) calls =
        some (totalAnswers SPSCStack.call ⟨[]⟩ (calls.map Call.op)) ∧
      ∃ replies, answers (Buffered.call capacity fuel) .start calls = some replies ∧
        replies = totalAnswers (SPSCStack.boundedCall capacity) ⟨[]⟩ (calls.map Call.op) ∧
        replies.filter Answer.accepts =
          totalAnswers SPSCStack.call ⟨[]⟩ ((kept calls replies).map Call.op) ∧
        answers (Buffered.call capacity fuel) .start (kept calls replies) =
          some (replies.filter Answer.accepts) := by
  refine ⟨2 * (calls.map fun c => c.spurious.length).sum + 5, fun fuel hfuel => ?_⟩
  have henough : ∀ c ∈ calls, 2 * c.spurious.length + 5 ≤ fuel := by
    intro c hc
    have hle : c.spurious.length ≤ (calls.map fun c => c.spurious.length).sum :=
      List.le_sum_of_mem (List.mem_map_of_mem hc)
    omega
  have hlinked : answers (LockFreeSPSCStack.call allocator fuel) (.start memory) calls =
      some (totalAnswers SPSCStack.call ⟨[]⟩ (calls.map Call.op)) := by
    refine answers_eq (R := LockFreeSPSCStack.Rests) (fun c hc s q hR => ?_)
      (LockFreeSPSCStack.rests_start memory)
    exact hR.call allocator (henough c hc)
  have harray : ∀ cs, (∀ c ∈ cs, c ∈ calls) →
      answers (Buffered.call capacity fuel) .start cs =
        some (totalAnswers (SPSCStack.boundedCall capacity) ⟨[]⟩ (cs.map Call.op)) := by
    intro cs hcs
    refine answers_eq (R := Buffered.Rests) (fun c hc s q hR => ?_) ⟨fun _ => rfl, rfl, trivial⟩
    have hle := henough c (hcs c hc)
    exact hR.call (by omega)
  obtain ⟨hlocked, hbounded⟩ := bounded_kept capacity (calls.map Call.op) ⟨[]⟩
  refine ⟨hlinked, _, harray calls (fun _ hc => hc), rfl, ?_, ?_⟩
  · rw [kept_map, hlocked]
  · rw [harray _ fun c hc => ?_, kept_map, hbounded]
    obtain ⟨p, hp, rfl⟩ := List.mem_map.mp hc
    exact (List.of_mem_zip (List.mem_filter.mp hp).1).1

end Main

end HseMultithreading.LockFree
