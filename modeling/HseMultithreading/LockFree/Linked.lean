/-
  File:      HseMultithreading/LockFree/Linked.lean
  Subject:   `LockFreeSPSCStack` (`lock_free/spsc_stack.cpp`): nodes on the heap, linked from an
             atomic `m_head`, under an allocator that hands out deleted addresses again.

  * `LockFreeSPSCStack`, `LockFreeSPSCStack.step` -- any number of threads inside `Push` and `Pop`:
    every load, `compare_exchange_weak` (which may fail spuriously), read of a node and `delete` is
    a step.
  * `abstractStack` -- the stack that the successful exchanges, taken in order, make.
  * `LockFreeSPSCStack.Represents` -- the chain from `m_head` holds this stack; what an exchange
    does to the chain.
  * `LockFreeSPSCStack.Correct` -- the chain from `m_head` is this stack and consists of live
    nodes; every `Pop` returns the top it met at its exchange; no access to a dead node; and the
    destructor leaves every node ever allocated deleted exactly once.
  * **`correct_one_popper`** -- all of this holds for any number of pushing threads and one popping
    thread. A node the popper has loaded stays in the chain until the popper removes it, so an equal
    `m_head` means an unchanged `next` although addresses are used again.
-/
import HseMultithreading.Lib.Heap
import HseMultithreading.Lib.Run

namespace HseMultithreading.LockFree

open StepSystem LinkedHeap

/-! ## 1. The machine -/

structure Node (T : Type*) where
  data : T
  next : Option ℕ

/-- A successful exchange on `m_head`. -/
inductive Exchange (T : Type*) where
  | push (value : T)
  | pop

/-- What an exchange does to a stack. -/
def Exchange.apply {T : Type*} (stack : List T) : Exchange T → List T
  | .push value => value :: stack
  | .pop => stack.tail

/-- **The abstract stack**: the exchanges applied in order, to the empty stack. -/
def abstractStack {T : Type*} (exchanges : List (Exchange T)) : List T :=
  exchanges.foldl Exchange.apply []

theorem abstractStack_push {T : Type*} (exchanges : List (Exchange T)) (value : T) :
    abstractStack (exchanges ++ [.push value]) = value :: abstractStack exchanges := by
  unfold abstractStack
  rw [List.foldl_append]
  rfl

theorem abstractStack_pop {T : Type*} (exchanges : List (Exchange T)) :
    abstractStack (exchanges ++ [.pop]) = (abstractStack exchanges).tail := by
  unfold abstractStack
  rw [List.foldl_append]
  rfl

/-- What a call does NEXT; `node` is `newHead` in a push and `oldHead` in a pop. -/
inductive StackPc (T : Type*) where
  | pushLoad (value : T) (node : ℕ)
  | pushCas (value : T) (node : ℕ)
  | popLoad
  | popNext (node : ℕ)
  | popCas (node : ℕ) (next : Option ℕ)
  | popData (node : ℕ)
  | popDelete (node : ℕ) (result : T)

/-- `m_head`, the heap and the calls in progress. Beside them an observer keeps the successful
    exchanges and, for each thread, the top of the abstract stack at the linearisation steps of its
    pops, and what its pops have returned. -/
structure LockFreeSPSCStack (T : Type*) where
  head : Option ℕ
  heap : Heap ℕ (Node T)
  threads : ℕ → Option (StackPc T)
  exchanges : List (Exchange T)
  tops : ℕ → List (Option T)
  results : ℕ → List (Option T)

inductive StackAction (T : Type*) where
  | push (t : ℕ) (value : T) (node : ℕ)
  | pop (t : ℕ)
  | advance (t : ℕ) (spurious : Bool)

namespace LockFreeSPSCStack

section Machine

variable {T : Type*}

/-- An empty stack, with anything in the memory. -/
def start (memory : ℕ → Node T) : LockFreeSPSCStack T :=
  ⟨none, .empty memory, fun _ => none, [], fun _ => [], fun _ => []⟩

def next (s : LockFreeSPSCStack T) (a : ℕ) : Option ℕ := (s.heap.cell a).next

def data (s : LockFreeSPSCStack T) (a : ℕ) : T := (s.heap.cell a).data

def stack (s : LockFreeSPSCStack T) : List T := abstractStack s.exchanges

def goto (s : LockFreeSPSCStack T) (t : ℕ) (pc : StackPc T) : LockFreeSPSCStack T :=
  { s with threads := Function.update s.threads t (some pc) }

/-- Thread `t` returns from a push. -/
def leave (s : LockFreeSPSCStack T) (t : ℕ) : LockFreeSPSCStack T :=
  { s with threads := Function.update s.threads t none }

/-- Thread `t` returns from a pop. -/
def answer (s : LockFreeSPSCStack T) (t : ℕ) (result : Option T) : LockFreeSPSCStack T :=
  { s.leave t with results := Function.update s.results t (s.results t ++ [result]) }

/-- The pop of thread `t` takes effect: the observer notes the top. -/
def linearise (s : LockFreeSPSCStack T) (t : ℕ) : LockFreeSPSCStack T :=
  { s with tops := Function.update s.tops t (s.tops t ++ [s.stack.head?]) }

/-- The node `a` with `m_head` as its `next`. -/
def relink (s : LockFreeSPSCStack T) (a : ℕ) : Heap ℕ (Node T) :=
  s.heap.write a { s.heap.cell a with next := s.head }

/-- `oldHead` becomes what `m_head` is, by the load or by a failed exchange. On null the loop ends
    and the pop returns empty. -/
def observe (s : LockFreeSPSCStack T) (t : ℕ) : LockFreeSPSCStack T :=
  match s.head with
  | none => (s.linearise t).answer t none
  | some a => s.goto t (.popNext a)

/-- The next step of thread `t` inside a call. The expected value of a push is the field `next` of
    its own node, and a failed exchange stores `m_head` there. -/
def advance (s : LockFreeSPSCStack T) (t : ℕ) (spurious : Bool) :
    StackPc T → LockFreeSPSCStack T
  | .pushLoad value a => { s with heap := s.relink a }.goto t (.pushCas value a)
  | .pushCas value a =>
    if s.head = s.next a ∧ spurious = false then
      { s with
        heap := s.heap.touch a
        head := some a
        exchanges := s.exchanges ++ [Exchange.push value] }.leave t
    else { s with heap := s.relink a }.goto t (.pushCas value a)
  | .popLoad => s.observe t
  | .popNext a => { s with heap := s.heap.touch a }.goto t (.popCas a (s.next a))
  | .popCas a next =>
    if s.head = some a ∧ spurious = false then
      { s.linearise t with
        head := next
        exchanges := s.exchanges ++ [Exchange.pop] }.goto t (.popData a)
    else s.observe t
  | .popData a => { s with heap := s.heap.touch a }.goto t (.popDelete a (s.data a))
  | .popDelete a result => { s with heap := s.heap.delete a }.answer t (some result)

/-- A push starts with `new Node`, at any address that is not in use. -/
def step (s : LockFreeSPSCStack T) : StackAction T → Option (LockFreeSPSCStack T)
  | .push t value a =>
    match s.threads t with
    | none =>
      if a ∈ s.heap.live then none
      else some ({ s with heap := s.heap.alloc a ⟨value, none⟩ }.goto t (.pushLoad value a))
    | some _ => none
  | .pop t =>
    match s.threads t with
    | none => some (s.goto t .popLoad)
    | some _ => none
  | .advance t spurious => (s.threads t).map (s.advance t spurious)

/-- The loop of the destructor, at most `fuel` rounds: read `head->next`, delete `head`. -/
def destroyLoop : ℕ → Heap ℕ (Node T) → Option ℕ → Option (Heap ℕ (Node T))
  | _, heap, none => some heap
  | 0, _, some _ => none
  | fuel + 1, heap, some a => destroyLoop fuel ((heap.touch a).delete a) (heap.cell a).next

/-- `m_head.exchange(nullptr)` and the loop. -/
def destructor (fuel : ℕ) (s : LockFreeSPSCStack T) : Option (LockFreeSPSCStack T) :=
  (destroyLoop fuel s.heap s.head).map fun heap => { s with heap := heap, head := none }

/-- **What a step does.** -/
theorem step_cases {s s' : LockFreeSPSCStack T} {act : StackAction T} (hs : s.step act = some s') :
    (∃ t value a, act = .push t value a ∧ s.threads t = none ∧ a ∉ s.heap.live ∧
      s' = { s with heap := s.heap.alloc a ⟨value, none⟩ }.goto t (.pushLoad value a)) ∨
    (∃ t, act = .pop t ∧ s.threads t = none ∧ s' = s.goto t .popLoad) ∨
    ∃ t spurious pc, act = .advance t spurious ∧ s.threads t = some pc ∧
      s' = s.advance t spurious pc := by
  cases act with
  | push t value a =>
      cases hpc : s.threads t with
      | some pc => simp only [step, hpc, reduceCtorEq] at hs
      | none =>
        by_cases ha : a ∈ s.heap.live
        · simp only [step, hpc, if_pos ha, reduceCtorEq] at hs
        · simp only [step, hpc, if_neg ha, Option.some.injEq] at hs
          exact .inl ⟨t, value, a, rfl, hpc, ha, hs.symm⟩
  | pop t =>
      cases hpc : s.threads t with
      | some pc => simp only [step, hpc, reduceCtorEq] at hs
      | none =>
        simp only [step, hpc, Option.some.injEq] at hs
        exact .inr (.inl ⟨t, rfl, hpc, hs.symm⟩)
  | advance t spurious =>
      obtain ⟨pc, hpc, rfl⟩ := Option.map_eq_some_iff.mp hs
      exact .inr (.inr ⟨t, spurious, pc, rfl, hpc, rfl⟩)

theorem observe_none {s : LockFreeSPSCStack T} {t : ℕ} (hhead : s.head = none) :
    s.observe t = (s.linearise t).answer t none := by
  unfold observe
  rw [hhead]

theorem observe_some {s : LockFreeSPSCStack T} {t a : ℕ} (hhead : s.head = some a) :
    s.observe t = s.goto t (.popNext a) := by
  unfold observe
  rw [hhead]

end Machine

end LockFreeSPSCStack

section Spec

variable {T : Type*}

/-- A pop that has made its exchange and not returned. -/
def StackPc.taken : StackPc T → Bool
  | .popData _ | .popDelete _ _ => true
  | _ => false

/-- `s'` is left when the destructor has run in `s`: every node allocated was deleted, once. -/
structure LockFreeSPSCStack.Destroyed (s s' : LockFreeSPSCStack T) : Prop where
  head : s'.head = none
  noFault : s'.heap.fault = false
  none_live : s'.heap.live = ∅
  once : (↑s'.heap.deleted : Multiset ℕ) = Multiset.range s.heap.allocated

/-- **A correct stack.** -/
structure LockFreeSPSCStack.Correct (s : LockFreeSPSCStack T) : Prop where
  chain : ∃ l, Chain s.next s.head l ∧ l.Nodup ∧ (∀ a ∈ l, a ∈ s.heap.live) ∧
    l.map s.data = abstractStack s.exchanges
  results : ∀ t, s.results t <+: s.tops t ∧
    (s.tops t).length = (s.results t).length + if (s.threads t).any StackPc.taken then 1 else 0
  noFault : s.heap.fault = false
  destroyed : (∀ t, s.threads t = none) →
    ∃ n, ∀ fuel, n ≤ fuel → ∃ s', s.destructor fuel = some s' ∧ s.Destroyed s'

/-- Only the thread `popper` starts a pop; it may push as well. -/
def StackAction.onlyPops (popper : ℕ) : StackAction T → Bool
  | .pop t => t == popper
  | _ => true

end Spec

/-! ## 2. The chain and the abstract stack -/

/-- **The chain `l` from `m_head` holds the abstract stack.** -/
structure LockFreeSPSCStack.Represents {T : Type*} (s : LockFreeSPSCStack T) (l : List ℕ) :
    Prop where
  chain : Chain s.next s.head l
  values : l.map s.data = s.stack

namespace LockFreeSPSCStack.Represents

variable {T : Type*} {s s' : LockFreeSPSCStack T} {l k : List ℕ} {a : ℕ}

/-- The nodes of the chain are left alone. -/
theorem frame (h : s.Represents l) (hhead : s'.head = s.head)
    (hexchanges : s'.exchanges = s.exchanges)
    (hcell : ∀ a ∈ l, s'.heap.cell a = s.heap.cell a) : s'.Represents l where
  chain := by
    rw [hhead]
    exact h.chain.congr fun a ha => congrArg Node.next (hcell a ha)
  values := by
    have hdata : l.map s'.data = l.map s.data :=
      List.map_congr_left fun a ha => congrArg Node.data (hcell a ha)
    rw [hdata, stack, hexchanges]
    exact h.values

theorem stack_eq_nil (h : s.Represents l) (hhead : s.head = none) : s.stack = [] := by
  have hchain := h.chain
  rw [hhead] at hchain
  rw [← h.values, hchain.eq_nil]
  rfl

/-- The node at `m_head` is the top. -/
theorem top (h : s.Represents l) (hhead : s.head = some a) :
    ∃ k, l = a :: k ∧ Chain s.next (s.next a) k ∧ s.stack = s.data a :: k.map s.data := by
  have hchain := h.chain
  rw [hhead] at hchain
  obtain ⟨k, rfl, hk⟩ := hchain.eq_cons
  exact ⟨k, rfl, hk, h.values.symm⟩

/-- A node that has `m_head` as its `next` is linked. -/
theorem push (h : s.Represents l) (hnext : s.head = s.next a)
    (hcell : s'.heap.cell = s.heap.cell) (hhead : s'.head = some a)
    (hexchanges : s'.exchanges = s.exchanges ++ [Exchange.push (s.data a)]) :
    s'.Represents (a :: l) where
  chain := by
    have hsame : s'.next = s.next := funext fun b => congrArg Node.next (congrFun hcell b)
    rw [hhead, hsame]
    refine .cons a l ?_
    rw [← hnext]
    exact h.chain
  values := by
    have hsame : s'.data = s.data := funext fun b => congrArg Node.data (congrFun hcell b)
    rw [stack, hexchanges, abstractStack_push, hsame, List.map_cons, h.values]
    rfl

/-- The node at `m_head` is unlinked. -/
theorem pop (hchain : Chain s.next s'.head k) (hstack : s.stack = s.data a :: k.map s.data)
    (hcell : s'.heap.cell = s.heap.cell)
    (hexchanges : s'.exchanges = s.exchanges ++ [Exchange.pop]) : s'.Represents k where
  chain := hchain.congr fun b _ => congrArg Node.next (congrFun hcell b)
  values := by
    have hsame : s'.data = s.data := funext fun b => congrArg Node.data (congrFun hcell b)
    rw [stack, hexchanges, abstractStack_pop, hsame]
    exact congrArg List.tail hstack.symm

end LockFreeSPSCStack.Represents

/-! ## 3. What the threads rely on -/

section Invariant

variable {T : Type*}

/-- The node a call alone may access: the one a push has made and not linked, the one a pop has
    unlinked and not deleted. -/
def StackPc.owns : StackPc T → Option ℕ
  | .pushLoad _ a | .pushCas _ a | .popData a | .popDelete a _ => some a
  | .popLoad | .popNext _ | .popCas _ _ => none

def LockFreeSPSCStack.holds (s : LockFreeSPSCStack T) (t : ℕ) : Option ℕ :=
  (s.threads t).bind StackPc.owns

/-- What thread `t` relies on at each point of a call, with the chain `l` in the heap. -/
def LockFreeSPSCStack.Fits (popper : ℕ) (s : LockFreeSPSCStack T) (l : List ℕ) (t : ℕ) :
    Option (StackPc T) → Prop
  | none => s.tops t = s.results t
  | some (.pushLoad value a) | some (.pushCas value a) =>
      s.data a = value ∧ s.tops t = s.results t
  | some .popLoad => t = popper ∧ s.tops t = s.results t
  | some (.popNext a) => t = popper ∧ a ∈ l ∧ s.tops t = s.results t
  | some (.popCas a next) => t = popper ∧ a ∈ l ∧ s.next a = next ∧ s.tops t = s.results t
  | some (.popData a) => t = popper ∧ s.tops t = s.results t ++ [some (s.data a)]
  | some (.popDelete _ result) => t = popper ∧ s.tops t = s.results t ++ [some result]

/-- **The invariant of one popping thread.** -/
structure StackInv (popper : ℕ) (s : LockFreeSPSCStack T) (l : List ℕ) : Prop where
  chain : Chain s.next s.head l
  values : l.map s.data = s.stack
  sound : s.heap.Sound
  owned : Owned s.holds s.heap.live l
  fits : ∀ t, s.Fits popper l t (s.threads t)

theorem stackInv_start (popper : ℕ) (memory : ℕ → Node T) :
    StackInv popper (.start memory) [] where
  chain := .nil
  values := rfl
  sound := Heap.sound_empty memory
  owned := owned_empty
  fits _ := rfl

variable {popper : ℕ} {s s' : LockFreeSPSCStack T} {l l' : List ℕ} {t : ℕ}

theorem StackInv.represents (h : StackInv popper s l) : s.Represents l := ⟨h.chain, h.values⟩

/-- A thread keeps what it relies on as long as the cells of the chain and its own are left alone
    and, in a pop, the chain loses no node. -/
theorem LockFreeSPSCStack.Fits.frame {pc : Option (StackPc T)} (h : s.Fits popper l t pc)
    (htops : s'.tops t = s.tops t) (hres : s'.results t = s.results t)
    (hcell : ∀ a, a ∈ l ∨ pc.bind StackPc.owns = some a → s'.heap.cell a = s.heap.cell a)
    (hl : t = popper → ∀ a ∈ l, a ∈ l') : s'.Fits popper l' t pc := by
  cases pc with
  | none =>
      show s'.tops t = s'.results t
      rw [htops, hres]
      exact h
  | some pc =>
      cases pc with
      | pushLoad value a | pushCas value a =>
          have e : s'.data a = s.data a := by
            unfold LockFreeSPSCStack.data
            rw [hcell a (.inr rfl)]
          exact ⟨e.trans h.1, by rw [htops, hres]; exact h.2⟩
      | popLoad => exact ⟨h.1, by rw [htops, hres]; exact h.2⟩
      | popNext a => exact ⟨h.1, hl h.1 a h.2.1, by rw [htops, hres]; exact h.2.2⟩
      | popCas a next =>
          have e : s'.next a = s.next a := by
            unfold LockFreeSPSCStack.next
            rw [hcell a (.inl h.2.1)]
          exact ⟨h.1, hl h.1 a h.2.1, e.trans h.2.2.1, by rw [htops, hres]; exact h.2.2.2⟩
      | popData a =>
          have e : s'.data a = s.data a := by
            unfold LockFreeSPSCStack.data
            rw [hcell a (.inr rfl)]
          refine ⟨h.1, ?_⟩
          rw [htops, hres, e]
          exact h.2
      | popDelete a result => exact ⟨h.1, by rw [htops, hres]; exact h.2⟩

/-- **A step of thread `t`**: the chain, the heap, the owners and what `t` relies on are checked;
    the other threads keep what they rely on. -/
theorem StackInv.of_step (h : StackInv popper s l) (new : Option (StackPc T))
    (hthr : s'.threads = Function.update s.threads t new)
    (hrep : s'.Represents l') (hsound : s'.heap.Sound)
    (howned : Owned (Function.update s.holds t (new.bind StackPc.owns)) s'.heap.live l')
    (hcell : ∀ a, a ∈ l ∨ (∃ t', t' ≠ t ∧ s.holds t' = some a) →
      s'.heap.cell a = s.heap.cell a)
    (hl : t ≠ popper → ∀ a ∈ l, a ∈ l')
    (hobs : ∀ t', t' ≠ t → s'.tops t' = s.tops t' ∧ s'.results t' = s.results t')
    (hself : s'.Fits popper l' t new) : StackInv popper s' l' where
  chain := hrep.chain
  values := hrep.values
  sound := hsound
  owned := by
    have hholds : s'.holds = Function.update s.holds t (new.bind StackPc.owns) := by
      funext t'
      unfold LockFreeSPSCStack.holds
      rw [hthr]
      exact Function.apply_update (fun _ pc => Option.bind pc StackPc.owns) s.threads t new t'
    rw [hholds]
    exact howned
  fits t' := by
    rw [hthr]
    by_cases ht : t' = t
    · rw [ht, Function.update_self]
      exact hself
    · rw [Function.update_of_ne ht]
      refine (h.fits t').frame (hobs t' ht).1 (hobs t' ht).2 (fun a ha => hcell a ?_)
        fun e => hl fun e' => ht (e.trans e'.symm)
      exact ha.imp_right fun ha => ⟨t', ht, ha⟩

/-! ### Steps that change a node or the chain -/

theorem LockFreeSPSCStack.holds_of {pc : Option (StackPc T)} (hpc : s.threads t = pc) :
    s.holds t = pc.bind StackPc.owns := by
  unfold LockFreeSPSCStack.holds
  rw [hpc]

/-- `new Node`. -/
theorem StackInv.newNode (h : StackInv popper s l) (hpc : s.threads t = none) {a : ℕ}
    (ha : a ∉ s.heap.live) (value : T) :
    StackInv popper
      ({ s with heap := s.heap.alloc a ⟨value, none⟩ }.goto t (.pushLoad value a)) l := by
  have hcell : ∀ b, b ∈ l ∨ (∃ t', t' ≠ t ∧ s.holds t' = some b) →
      Function.update s.heap.cell a ⟨value, none⟩ b = s.heap.cell b := by
    intro b hb
    have hne : b ≠ a := fun e => ha (e ▸ (h.owned.elsewhere hb).1)
    exact Function.update_of_ne hne _ _
  have hfits := h.fits t
  rw [hpc] at hfits
  refine h.of_step (some (.pushLoad value a)) rfl
    (h.represents.frame rfl rfl fun b hb => hcell b (.inl hb)) (h.sound.alloc ha _)
    (h.owned.acquire (LockFreeSPSCStack.holds_of hpc) ha) hcell (fun _ _ hb => hb)
    (fun _ _ => ⟨rfl, rfl⟩) ⟨?_, hfits⟩
  show (Function.update s.heap.cell a ⟨value, none⟩ a).data = value
  rw [Function.update_self]

/-- A push stores `m_head` into the `next` of its node. -/
theorem StackInv.relinked (h : StackInv popper s l) {pc : StackPc T} {a : ℕ} {value : T}
    (hpc : s.threads t = some pc) (howns : pc.owns = some a) (hdata : s.data a = value)
    (hobs : s.tops t = s.results t) :
    StackInv popper ({ s with heap := s.relink a }.goto t (.pushCas value a)) l := by
  have hholds : s.holds t = some a := (LockFreeSPSCStack.holds_of hpc).trans howns
  have hcell : ∀ b, b ∈ l ∨ (∃ t', t' ≠ t ∧ s.holds t' = some b) →
      (s.relink a).cell b = s.heap.cell b := by
    intro b hb
    have hne : b ≠ a := fun e => (h.owned.elsewhere hb).2 (e ▸ hholds)
    exact Function.update_of_ne hne _ _
  refine h.of_step (some (.pushCas value a)) rfl
    (h.represents.frame rfl rfl fun b hb => hcell b (.inl hb))
    (h.sound.write (h.owned.held t a hholds).1 _) (h.owned.keep hholds) hcell (fun _ _ hb => hb)
    (fun _ _ => ⟨rfl, rfl⟩) ⟨?_, hobs⟩
  show (Function.update s.heap.cell a { s.heap.cell a with next := s.head } a).data = value
  rw [Function.update_self]
  exact hdata

/-- A push links its node: `m_head` is still what the node's `next` says. -/
theorem StackInv.linked (h : StackInv popper s l) {a : ℕ} {value : T}
    (hpc : s.threads t = some (.pushCas value a)) (hhead : s.head = s.next a) :
    StackInv popper ({ s with
      heap := s.heap.touch a
      head := some a
      exchanges := s.exchanges ++ [Exchange.push value] }.leave t) (a :: l) := by
  have hholds : s.holds t = some a := LockFreeSPSCStack.holds_of hpc
  have hfits := h.fits t
  rw [hpc] at hfits
  obtain ⟨rfl, hobs⟩ := hfits
  rw [Heap.touch_of_live (h.owned.held t a hholds).1]
  exact h.of_step none rfl (h.represents.push hhead rfl rfl rfl) h.sound (h.owned.publish hholds)
    (fun _ _ => rfl) (fun _ _ hb => List.mem_cons_of_mem a hb) (fun _ _ => ⟨rfl, rfl⟩) hobs

/-- The pop unlinks the node at `m_head`; its `next` is what the pop has read. -/
theorem StackInv.unlinked (h : StackInv popper s l) {a : ℕ} {next : Option ℕ}
    (hpc : s.threads t = some (.popCas a next)) (hhead : s.head = some a) :
    ∃ l', StackInv popper ({ s.linearise t with
      head := next, exchanges := s.exchanges ++ [Exchange.pop] }.goto t (.popData a)) l' := by
  have hfits := h.fits t
  rw [hpc] at hfits
  obtain ⟨hpopper, -, hnext, hobs⟩ := hfits
  obtain ⟨k, rfl, hk, hstack⟩ := h.represents.top hhead
  have ha : a ∉ k := (List.nodup_cons.mp h.chain.nodup).1
  refine ⟨k, h.of_step (some (.popData a)) rfl (.pop (hnext ▸ hk) hstack rfl rfl) h.sound
    (h.owned.take (LockFreeSPSCStack.holds_of hpc) ha) (fun _ _ => rfl)
    (fun hne => absurd hpopper hne) (fun t' ht => ⟨Function.update_of_ne ht _ _, rfl⟩)
    ⟨hpopper, ?_⟩⟩
  show Function.update s.tops t (s.tops t ++ [s.stack.head?]) t = s.results t ++ [some (s.data a)]
  rw [Function.update_self, hobs, hstack]
  rfl

/-- The pop deletes the node it has unlinked. -/
theorem StackInv.deleted (h : StackInv popper s l) {a : ℕ} {result : T}
    (hpc : s.threads t = some (.popDelete a result)) :
    StackInv popper ({ s with heap := s.heap.delete a }.answer t (some result)) l := by
  have hholds : s.holds t = some a := LockFreeSPSCStack.holds_of hpc
  have hfits := h.fits t
  rw [hpc] at hfits
  refine h.of_step none rfl ⟨h.chain, h.values⟩ (h.sound.delete (h.owned.held t a hholds).1)
    (h.owned.release hholds) (fun _ _ => rfl) (fun _ _ hb => hb)
    (fun t' ht => ⟨rfl, Function.update_of_ne ht _ _⟩) ?_
  show s.tops t = Function.update s.results t (s.results t ++ [some result]) t
  rw [Function.update_self]
  exact hfits.2

/-! ### Steps that change neither -/

/-- Thread `t` moves on and holds what it held. -/
theorem StackInv.moves (h : StackInv popper s l) (new : StackPc T)
    (howns : s.holds t = new.owns) (hself : s.Fits popper l t (some new)) :
    StackInv popper (s.goto t new) l := by
  refine h.of_step (some new) rfl ⟨h.chain, h.values⟩ h.sound (h.owned.keep howns)
    (fun _ _ => rfl) (fun _ _ hb => hb) (fun _ _ => ⟨rfl, rfl⟩) ?_
  cases new <;> exact hself

/-- The pop has a new `oldHead`. -/
theorem StackInv.observed (h : StackInv popper s l) (hholds : s.holds t = none)
    (hpopper : t = popper) (hobs : s.tops t = s.results t) :
    StackInv popper (s.observe t) l := by
  cases hhead : s.head with
  | some a =>
      obtain ⟨k, rfl, -⟩ := h.represents.top hhead
      rw [LockFreeSPSCStack.observe_some hhead]
      exact h.moves (.popNext a) hholds ⟨hpopper, List.mem_cons_self, hobs⟩
  | none =>
      rw [LockFreeSPSCStack.observe_none hhead]
      refine h.of_step none rfl ⟨h.chain, h.values⟩ h.sound (h.owned.keep hholds) (fun _ _ => rfl)
        (fun _ _ hb => hb)
        (fun t' ht => ⟨Function.update_of_ne ht _ _, Function.update_of_ne ht _ _⟩) ?_
      show Function.update s.tops t (s.tops t ++ [s.stack.head?]) t =
        Function.update s.results t (s.results t ++ [none]) t
      rw [Function.update_self, Function.update_self, h.represents.stack_eq_nil hhead, hobs]
      rfl

/-! ### Steps and runs -/

/-- **Every step of a call keeps the invariant.** -/
theorem StackInv.advance (h : StackInv popper s l) (spurious : Bool) {pc : StackPc T}
    (hpc : s.threads t = some pc) : ∃ l', StackInv popper (s.advance t spurious pc) l' := by
  have hfits := h.fits t
  rw [hpc] at hfits
  have hholds : s.holds t = pc.owns := LockFreeSPSCStack.holds_of hpc
  cases pc with
  | pushLoad value a => exact ⟨l, h.relinked hpc rfl hfits.1 hfits.2⟩
  | pushCas value a =>
      simp only [LockFreeSPSCStack.advance]
      split
      next hcas => exact ⟨a :: l, h.linked hpc hcas.1⟩
      next => exact ⟨l, h.relinked hpc rfl hfits.1 hfits.2⟩
  | popLoad => exact ⟨l, h.observed hholds hfits.1 hfits.2⟩
  | popNext a =>
      obtain ⟨hpopper, ha, hobs⟩ := hfits
      simp only [LockFreeSPSCStack.advance]
      rw [Heap.touch_of_live (h.owned.shared a ha)]
      exact ⟨l, h.moves (.popCas a (s.next a)) hholds ⟨hpopper, ha, rfl, hobs⟩⟩
  | popCas a next =>
      simp only [LockFreeSPSCStack.advance]
      split
      next hcas => exact h.unlinked hpc hcas.1
      next => exact ⟨l, h.observed hholds hfits.1 hfits.2.2.2⟩
  | popData a =>
      simp only [LockFreeSPSCStack.advance]
      rw [Heap.touch_of_live (h.owned.held t a hholds).1]
      exact ⟨l, h.moves (.popDelete a (s.data a)) hholds hfits⟩
  | popDelete a result => exact ⟨l, h.deleted hpc⟩

theorem StackInv.step (h : StackInv popper s l) {a : StackAction T}
    (hpops : a.onlyPops popper = true) (hs : s.step a = some s') : ∃ l', StackInv popper s' l' := by
  obtain ⟨t, value, node, rfl, hpc, hnode, rfl⟩ | ⟨t, rfl, hpc, rfl⟩ |
    ⟨t, spurious, pc, rfl, hpc, rfl⟩ := LockFreeSPSCStack.step_cases hs
  · exact ⟨l, h.newNode hpc hnode value⟩
  · have hfits := h.fits t
    rw [hpc] at hfits
    exact ⟨l, h.moves .popLoad (LockFreeSPSCStack.holds_of hpc) ⟨of_decide_eq_true hpops, hfits⟩⟩
  · exact h.advance spurious hpc

theorem stackInv_reach (popper : ℕ) (memory : ℕ → Node T)
    (h : ReachWhere LockFreeSPSCStack.step (fun _ a => a.onlyPops popper = true)
      (.start memory) s) : ∃ l, StackInv popper s l :=
  h.invariant (I := fun s => ∃ l, StackInv popper s l) ⟨[], stackInv_start popper memory⟩
    fun _ _ _ ⟨_, hi⟩ hc hs => hi.step hc hs

end Invariant

/-! ## 4. The destructor -/

section Destructor

variable {T : Type*}

/-- **The loop deletes the nodes of the chain, each once, and nothing else.** -/
theorem destroyLoop_chain {l : List ℕ} : ∀ {fuel : ℕ} {heap : Heap ℕ (Node T)} {p : Option ℕ},
    Chain (fun a => (heap.cell a).next) p l → heap.Sound → (∀ a ∈ l, a ∈ heap.live) →
    l.length ≤ fuel →
    ∃ heap', LockFreeSPSCStack.destroyLoop fuel heap p = some heap' ∧ heap'.Sound ∧
      heap'.allocated = heap.allocated ∧ ∀ a, a ∈ heap'.live ↔ a ∈ heap.live ∧ a ∉ l := by
  induction l with
  | nil =>
      intro fuel heap p hchain hsound _ _
      cases hchain
      refine ⟨heap, ?_, hsound, rfl, fun a => ⟨fun ha => ⟨ha, List.not_mem_nil⟩, fun ha => ha.1⟩⟩
      unfold LockFreeSPSCStack.destroyLoop
      rfl
  | cons b k ih =>
      intro fuel heap p hchain hsound hlive hfuel
      have hb : b ∈ heap.live := hlive b List.mem_cons_self
      have hbk : b ∉ k := (List.nodup_cons.mp hchain.nodup).1
      cases hchain with
      | cons _ _ hk =>
        cases fuel with
        | zero => exact absurd hfuel (Nat.not_succ_le_zero _)
        | succ fuel =>
          -- Deleting a node leaves the links of the others as they are.
          have hk' : Chain (fun a => ((heap.delete b).cell a).next) (heap.cell b).next k := hk
          obtain ⟨heap', hrun, hsound', halloc, hmem⟩ := ih hk' (hsound.delete hb)
            (fun a ha => Finset.mem_erase.mpr
              ⟨fun e => hbk (e ▸ ha), hlive a (List.mem_cons_of_mem b ha)⟩)
            (Nat.le_of_succ_le_succ hfuel)
          refine ⟨heap', ?_, hsound', halloc, fun a => ?_⟩
          · show LockFreeSPSCStack.destroyLoop fuel ((heap.touch b).delete b) _ = _
            rw [Heap.touch_of_live hb]
            exact hrun
          · rw [hmem]
            show a ∈ heap.live.erase b ∧ a ∉ k ↔ _
            rw [Finset.mem_erase, List.mem_cons, not_or]
            exact ⟨fun h => ⟨h.1.2, h.1.1, h.2⟩, fun h => ⟨⟨h.2.1, h.1⟩, h.2.2⟩⟩

theorem StackInv.destroyed {popper : ℕ} {s : LockFreeSPSCStack T} {l : List ℕ}
    (h : StackInv popper s l) (hidle : ∀ t, s.threads t = none) {fuel : ℕ}
    (hfuel : l.length ≤ fuel) : ∃ s', s.destructor fuel = some s' ∧ s.Destroyed s' := by
  obtain ⟨heap', hrun, hsound, halloc, hmem⟩ :=
    destroyLoop_chain h.chain h.sound h.owned.shared hfuel
  have hlive : heap'.live = ∅ := by
    refine Finset.eq_empty_of_forall_notMem fun a ha => ?_
    obtain ⟨ha, hal⟩ := (hmem a).mp ha
    rcases h.owned.accounted a ha with hl | ⟨t, ht⟩
    · exact hal hl
    · rw [LockFreeSPSCStack.holds_of (hidle t)] at ht
      cases ht
  refine ⟨{ s with heap := heap', head := none }, ?_, rfl, hsound.noFault, hlive, ?_⟩
  · unfold LockFreeSPSCStack.destructor
    rw [hrun]
    rfl
  · have hbal := hsound.balance
    rw [hlive, halloc] at hbal
    rw [← hbal]
    exact (add_zero _).symm

end Destructor

/-! ## 5. The stack is correct -/

section Main

variable {T : Type*}

/-- Every pop that took effect has returned. -/
theorem answered {tops results : List (Option T)} (h : tops = results) :
    results <+: tops ∧ tops.length = results.length + 0 := by
  rw [h]
  exact ⟨List.prefix_rfl, rfl⟩

/-- One pop has taken effect and not returned. -/
theorem unanswered {tops results : List (Option T)} {x : Option T} (h : tops = results ++ [x]) :
    results <+: tops ∧ tops.length = results.length + 1 := by
  rw [h]
  exact ⟨List.prefix_append _ _, List.length_append⟩

theorem StackInv.results {popper : ℕ} {s : LockFreeSPSCStack T} {l : List ℕ}
    (h : StackInv popper s l) (t : ℕ) :
    s.results t <+: s.tops t ∧
      (s.tops t).length =
        (s.results t).length + if (s.threads t).any StackPc.taken then 1 else 0 := by
  have hfits := h.fits t
  cases hpc : s.threads t with
  | none => rw [hpc] at hfits; exact answered hfits
  | some pc =>
      rw [hpc] at hfits
      cases pc with
      | pushLoad value a | pushCas value a => exact answered hfits.2
      | popLoad => exact answered hfits.2
      | popNext a => exact answered hfits.2.2
      | popCas a next => exact answered hfits.2.2.2
      | popData a => exact unanswered hfits.2
      | popDelete a result => exact unanswered hfits.2

/-- **The stack is correct for any number of pushing threads and one popping thread**, in every
    interleaving, with deleted addresses handed out again. -/
theorem correct_one_popper (popper : ℕ) (memory : ℕ → Node T) {s : LockFreeSPSCStack T}
    (h : ReachWhere LockFreeSPSCStack.step (fun _ a => a.onlyPops popper = true)
      (.start memory) s) : s.Correct := by
  obtain ⟨l, hi⟩ := stackInv_reach popper memory h
  exact
    { chain := ⟨l, hi.chain, hi.chain.nodup, hi.owned.shared, hi.values⟩
      results := hi.results
      noFault := hi.sound.noFault
      destroyed := fun hidle => ⟨l.length, fun _ hfuel => hi.destroyed hidle hfuel⟩ }

/-- Threads 1 and 2 push at the addresses 3 and 4 while thread 0 pops: its exchange fails against
    the second push, it takes 6 and deletes the node at 4, which thread 2 gets again for 7. -/
def reused : List (StackAction ℕ) :=
  [.push 1 5 3, .advance 1 false, .advance 1 true, .advance 1 false,
   .pop 0, .advance 0 false, .advance 0 false,
   .push 2 6 4, .advance 2 false, .advance 2 false,
   .advance 0 false, .advance 0 false, .advance 0 false, .advance 0 false, .advance 0 false,
   .push 2 7 4, .advance 2 false, .advance 2 false,
   .pop 0, .advance 0 false, .advance 0 false, .advance 0 false, .advance 0 false, .advance 0 false]

theorem correct_one_popper_reused :
    ∃ s : LockFreeSPSCStack ℕ,
      ReachWhere LockFreeSPSCStack.step (fun _ a => a.onlyPops 0 = true)
        (.start fun _ => ⟨0, none⟩) s ∧
      s.results 0 = [some 6, some 7] ∧ s.heap.deleted = [1, 2] ∧ s.stack = [5] ∧ s.Correct := by
  obtain ⟨s, hs, hp⟩ := reach_of_run LockFreeSPSCStack.step (fun _ a => a.onlyPops 0)
    (.start fun _ => ⟨0, none⟩) reused
    (fun s => decide (s.results 0 = [some 6, some 7] ∧ s.heap.deleted = [1, 2] ∧ s.stack = [5]))
    (by decide +kernel)
  obtain ⟨hres, hdel, hstack⟩ := of_decide_eq_true hp
  exact ⟨s, hs, hres, hdel, hstack, correct_one_popper 0 _ hs⟩

end Main

end HseMultithreading.LockFree
