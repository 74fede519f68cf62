/-
  File:      HseMultithreading/LockFree/Buffered.lean
  Subject:   `BufferedLockFreeSPSCStack` (`lock_free/spsc_stack.cpp`, `ipc/shm_atomics.cpp`): an
             array and an atomic `m_head`. A call claims its cell with a `compare_exchange_weak`
             on `m_head` and accesses the cell in a step of its own.

  * `Buffered`, `Buffered.step` -- any number of threads inside `Push` and `Pop`: the load of
    `m_head`, the `compare_exchange_weak` (which may fail spuriously), the access to `m_buffer`.
  * `Buffered.Transferred` -- every value returned was passed to a push that has claimed a cell,
    none is returned more often than it was pushed, and between calls the values pushed are the
    values popped and those below `m_head`.
  * `transferred_inOrder` -- for one producer and one consumer this holds as long as two calls
    that have claimed one cell access it in the order of their claims.
  * `transfer_fails` -- a pop that overtakes the write returns a value nobody pushed; a push that
    overtakes the read makes one value come out twice.
-/
import Mathlib.Algebra.Order.Group.Multiset
import Mathlib.Data.List.Range
import HseMultithreading.Lib.Run

namespace HseMultithreading.LockFree

open StepSystem

/-! ## 1. The machine -/

/-- What a call does NEXT. -/
inductive BufferedPc (T : Type*) where
  | pushLoad (value : T)
  | pushCas (value : T) (top : ℤ)
  | write (value : T) (top : ℤ)
  | popLoad
  | popCas (top : ℤ)
  | read (i : ℤ)

/-- `m_head`, `m_buffer` and the calls in progress. Beside them an observer keeps the values of
    the pushes that have claimed a cell, the values of the pushes that have returned `true`, the
    number of pops that have claimed a cell, and the values the pops have returned. -/
structure Buffered (T : Type*) where
  head : ℤ
  buffer : ℤ → T
  threads : ℕ → Option (BufferedPc T)
  claimed : List T
  pushed : List T
  taken : ℕ
  popped : List T

section Machine

variable {T : Type*}

/-- An empty stack: `m_head{0}`, `m_buffer{}`. -/
def Buffered.start [Inhabited T] : Buffered T := ⟨0, fun _ => default, fun _ => none, [], [], 0, []⟩

def Buffered.goto (s : Buffered T) (t : ℕ) (pc : BufferedPc T) : Buffered T :=
  { s with threads := Function.update s.threads t (some pc) }

/-- Thread `t` returns to its caller. -/
def Buffered.leave (s : Buffered T) (t : ℕ) : Buffered T :=
  { s with threads := Function.update s.threads t none }

/-- The next step of thread `t` inside a call. A `compare_exchange_weak` succeeds when `m_head` is
    still what was loaded and it does not fail spuriously; otherwise the loop starts over. -/
def Buffered.advance (capacity : ℕ) (s : Buffered T) (t : ℕ) (spurious : Bool) :
    BufferedPc T → Buffered T
  | .pushLoad value =>
    if s.head = capacity then s.leave t else s.goto t (.pushCas value s.head)
  | .pushCas value top =>
    if s.head = top ∧ spurious = false then
      { s.goto t (.write value top) with head := top + 1, claimed := s.claimed ++ [value] }
    else s.goto t (.pushLoad value)
  | .write value top =>
    { s.leave t with
      buffer := Function.update s.buffer top value
      pushed := s.pushed ++ [value] }
  | .popLoad => if s.head = 0 then s.leave t else s.goto t (.popCas s.head)
  | .popCas top =>
    if s.head = top ∧ spurious = false then
      { s.goto t (.read (top - 1)) with head := top - 1, taken := s.taken + 1 }
    else s.goto t .popLoad
  | .read i => { s.leave t with popped := s.popped ++ [s.buffer i] }

inductive BufferedAction (T : Type*) where
  | push (t : ℕ) (value : T)
  | pop (t : ℕ)
  | advance (t : ℕ) (spurious : Bool)

def Buffered.step (capacity : ℕ) (s : Buffered T) : BufferedAction T → Option (Buffered T)
  | .push t value =>
    match s.threads t with
    | none => some (s.goto t (.pushLoad value))
    | some _ => none
  | .pop t =>
    match s.threads t with
    | none => some (s.goto t .popLoad)
    | some _ => none
  | .advance t spurious => (s.threads t).map (s.advance capacity t spurious)

/-- The values of the cells below an index. -/
def below (cells : ℤ → T) (h : ℤ) : Multiset T :=
  ↑((List.range h.toNat).map fun k : ℕ => cells k)

/-- **What a stack owes its users.** -/
structure Buffered.Transferred (s : Buffered T) : Prop where
  passed : ∀ x ∈ s.popped, x ∈ s.claimed
  once : (↑s.popped : Multiset T) ≤ ↑s.claimed
  balanced : (∀ t, s.threads t = none) →
    (↑s.pushed : Multiset T) = ↑s.popped + below s.buffer s.head

/-- Thread 0 only pushes, thread 1 only pops. -/
def BufferedAction.spsc : BufferedAction T → Bool
  | .push t _ => t == 0
  | .pop t => t == 1
  | .advance _ _ => true

def BufferedPc.writesTo (i : ℤ) : BufferedPc T → Bool
  | .write _ j => j == i
  | _ => false

def BufferedPc.readsFrom (i : ℤ) : BufferedPc T → Bool
  | .read j => j == i
  | _ => false

/-- **Accesses in the order of the claims.** With the producer before its write of cell `i` and the
    consumer before its read of it, `m_head = i` says that the producer has claimed the cell
    first, and `m_head = i + 1` that the consumer has. -/
def Buffered.inOrder (s : Buffered T) : BufferedAction T → Bool
  | .advance t _ =>
    match s.threads t with
    | some (.read i) => !(s.head == i && (s.threads 0).any (BufferedPc.writesTo i))
    | some (.write _ i) => !(s.head == i + 1 && (s.threads 1).any (BufferedPc.readsFrom i))
    | _ => true
  | _ => true

end Machine

/-! ## 2. Cells below an index -/

section Below

variable {T : Type*} {f g : ℤ → T} {h : ℤ}

theorem below_succ (f : ℤ → T) (hh : 0 ≤ h) : below f (h + 1) = below f h + {f h} := by
  obtain ⟨n, rfl⟩ := Int.eq_ofNat_of_zero_le hh
  have e : ((n : ℤ) + 1).toNat = n + 1 := by omega
  unfold below
  rw [e, Int.toNat_natCast, List.range_succ, List.map_append, ← Multiset.coe_add]
  rfl

theorem below_congr (he : ∀ k, k < h → f k = g k) : below f h = below g h := by
  unfold below
  refine congrArg _ (List.map_congr_left fun k hk => he k ?_)
  have := List.mem_range.mp hk
  omega

end Below

/-! ## 3. One producer and one consumer -/

section Spsc

variable {T : Type*}

/-- The cell a call has claimed and not yet written, with its value. -/
def BufferedPc.writes : BufferedPc T → Option (ℤ × T)
  | .write value i => some (i, value)
  | _ => none

/-- The cell a call has claimed and not yet read. -/
def BufferedPc.reads : BufferedPc T → Option ℤ
  | .read i => some i
  | _ => none

def BufferedPc.pushing : BufferedPc T → Bool
  | .pushLoad _ | .pushCas _ _ | .write _ _ => true
  | .popLoad | .popCas _ | .read _ => false

/-- The write the producer has pending. -/
def Buffered.writing (s : Buffered T) : Option (ℤ × T) := (s.threads 0).bind BufferedPc.writes

/-- The read the consumer has pending. -/
def Buffered.reading (s : Buffered T) : Option ℤ := (s.threads 1).bind BufferedPc.reads

/-- The cells once the pending write is done. -/
def Buffered.settled (s : Buffered T) : ℤ → T :=
  match s.writing with
  | some (i, value) => Function.update s.buffer i value
  | none => s.buffer

/-- The value the pending read is to return: that of the pending write if the producer has claimed
    the cell first. -/
def Buffered.owed (s : Buffered T) : Multiset T :=
  match s.reading with
  | some j => {if s.head = j then s.settled j else s.buffer j}
  | none => 0

/-- Where the pending accesses lie: a write right below `m_head`, a read right at it, and both in
    one cell when there are two. -/
def Buffered.Placed (s : Buffered T) : Prop :=
  match s.writing, s.reading with
  | none, none => True
  | some (i, _), none => s.head = i + 1
  | none, some j => s.head = j
  | some (i, _), some j => i = j ∧ (s.head = i ∨ s.head = i + 1)

/-- Thread 0 is inside pushes, thread 1 inside pops, and a pop goes on with what it has loaded only
    if that is not zero. -/
structure Roles (threads : ℕ → Option (BufferedPc T)) : Prop where
  producer : ∀ pc, threads 0 = some pc → pc.pushing = true
  consumer : ∀ pc, threads 1 = some pc → pc.pushing = false
  others : ∀ t, threads t ≠ none → t = 0 ∨ t = 1
  loaded : ∀ top, threads 1 = some (.popCas top) → top ≠ 0

/-- **The invariant of one producer and one consumer that access cells in order.** -/
structure SpscInv (s : Buffered T) : Prop where
  roles : Roles s.threads
  nonneg : 0 ≤ s.head
  placed : s.Placed
  records : s.claimed = s.pushed ++ (s.writing.map Prod.snd).toList
  balance : (↑s.claimed : Multiset T) = ↑s.popped + s.owed + below s.settled s.head

theorem spscInv_start [Inhabited T] : SpscInv (Buffered.start : Buffered T) where
  roles := ⟨fun _ h => (nomatch h), fun _ h => (nomatch h), fun _ h => absurd rfl h,
    fun _ h => (nomatch h)⟩
  nonneg := Int.le_refl 0
  placed := trivial
  records := rfl
  balance := rfl

theorem Roles.update_producer {threads : ℕ → Option (BufferedPc T)} (h : Roles threads)
    {new : Option (BufferedPc T)} (hnew : ∀ pc, new = some pc → pc.pushing = true) :
    Roles (Function.update threads 0 new) where
  producer pc e := by rw [Function.update_self] at e; exact hnew pc e
  consumer pc e := by rw [Function.update_of_ne Nat.one_ne_zero] at e; exact h.consumer pc e
  others t e := by
    by_cases ht : t = 0
    · exact .inl ht
    · rw [Function.update_of_ne ht] at e
      exact h.others t e
  loaded top e := by rw [Function.update_of_ne Nat.one_ne_zero] at e; exact h.loaded top e

theorem Roles.update_consumer {threads : ℕ → Option (BufferedPc T)} (h : Roles threads)
    {new : Option (BufferedPc T)} (hnew : ∀ pc, new = some pc → pc.pushing = false)
    (hload : ∀ top, new = some (.popCas top) → top ≠ 0) :
    Roles (Function.update threads 1 new) where
  producer pc e := by rw [Function.update_of_ne Nat.zero_ne_one] at e; exact h.producer pc e
  consumer pc e := by rw [Function.update_self] at e; exact hnew pc e
  others t e := by
    by_cases ht : t = 1
    · exact .inr ht
    · rw [Function.update_of_ne ht] at e
      exact h.others t e
  loaded top e := by rw [Function.update_self] at e; exact hload top e

variable {s s' : Buffered T}

/-- A step of the producer and the pending accesses. -/
theorem Buffered.producer_view {new : Option (BufferedPc T)}
    (hthr : s'.threads = Function.update s.threads 0 new) :
    s'.writing = new.bind BufferedPc.writes ∧ s'.reading = s.reading := by
  unfold Buffered.writing Buffered.reading
  rw [hthr, Function.update_self, Function.update_of_ne Nat.one_ne_zero]
  exact ⟨rfl, rfl⟩

/-- A step of the consumer and the pending accesses. -/
theorem Buffered.consumer_view {new : Option (BufferedPc T)}
    (hthr : s'.threads = Function.update s.threads 1 new) :
    s'.reading = new.bind BufferedPc.reads ∧ s'.writing = s.writing := by
  unfold Buffered.writing Buffered.reading
  rw [hthr, Function.update_self, Function.update_of_ne Nat.zero_ne_one]
  exact ⟨rfl, rfl⟩

theorem Buffered.settled_of_none (h : s.writing = none) : s.settled = s.buffer := by
  unfold Buffered.settled
  rw [h]

theorem Buffered.settled_congr (hw : s'.writing = s.writing) (hbuf : s'.buffer = s.buffer) :
    s'.settled = s.settled := by
  unfold Buffered.settled
  rw [hw, hbuf]

theorem Buffered.owed_of_none (h : s.reading = none) : s.owed = 0 := by
  unfold Buffered.owed
  rw [h]

/-- A step that neither claims nor accesses a cell. -/
theorem SpscInv.quiet (h : SpscInv s) (hroles : Roles s'.threads) (hhead : s'.head = s.head)
    (hbuf : s'.buffer = s.buffer) (hw : s'.writing = s.writing) (hr : s'.reading = s.reading)
    (hc : s'.claimed = s.claimed) (hpush : s'.pushed = s.pushed) (hpop : s'.popped = s.popped) :
    SpscInv s' where
  roles := hroles
  nonneg := by rw [hhead]; exact h.nonneg
  placed := by
    have hp := h.placed
    unfold Buffered.Placed at hp ⊢
    rw [hw, hr, hhead]
    exact hp
  records := by rw [hc, hpush, hw]; exact h.records
  balance := by
    have hset := Buffered.settled_congr hw hbuf
    have howed : s'.owed = s.owed := by
      unfold Buffered.owed
      rw [hr, hhead, hset, hbuf]
    rw [hc, hpop, howed, hset, hhead]
    exact h.balance

/-- The producer moves on without claiming or writing. -/
theorem SpscInv.producer_moves (h : SpscInv s) (new : Option (BufferedPc T))
    (hold : s.writing = none) (hnew : ∀ pc, new = some pc → pc.pushing = true ∧ pc.writes = none) :
    SpscInv { s with threads := Function.update s.threads 0 new } := by
  generalize hs : ({ s with threads := Function.update s.threads 0 new } : Buffered T) = s'
  have hthr : s'.threads = Function.update s.threads 0 new := by rw [← hs]
  obtain ⟨hw, hr⟩ := Buffered.producer_view hthr
  have hnone : new.bind BufferedPc.writes = none :=
    Option.bind_eq_none_iff.mpr fun pc e => (hnew pc e).2
  have hroles : Roles s'.threads := by
    rw [hthr]
    exact h.roles.update_producer fun pc e => (hnew pc e).1
  subst hs
  exact h.quiet hroles rfl rfl (by rw [hw, hold, hnone]) hr rfl rfl rfl

/-- The consumer moves on without claiming or reading. -/
theorem SpscInv.consumer_moves (h : SpscInv s) (new : Option (BufferedPc T))
    (hold : s.reading = none) (hnew : ∀ pc, new = some pc → pc.pushing = false ∧ pc.reads = none)
    (hload : ∀ top, new = some (.popCas top) → top ≠ 0) :
    SpscInv { s with threads := Function.update s.threads 1 new } := by
  generalize hs : ({ s with threads := Function.update s.threads 1 new } : Buffered T) = s'
  have hthr : s'.threads = Function.update s.threads 1 new := by rw [← hs]
  obtain ⟨hr, hw⟩ := Buffered.consumer_view hthr
  have hnone : new.bind BufferedPc.reads = none :=
    Option.bind_eq_none_iff.mpr fun pc e => (hnew pc e).2
  have hroles : Roles s'.threads := by
    rw [hthr]
    exact h.roles.update_consumer (fun pc e => (hnew pc e).1) hload
  subst hs
  exact h.quiet hroles rfl rfl hw (by rw [hr, hold, hnone]) rfl rfl rfl

/-! ### The four steps at a cell -/

theorem Buffered.writing_of {pc : BufferedPc T} (hpc : s.threads 0 = some pc) :
    s.writing = pc.writes := by
  unfold Buffered.writing
  rw [hpc]
  rfl

theorem Buffered.reading_of {pc : BufferedPc T} (hpc : s.threads 1 = some pc) :
    s.reading = pc.reads := by
  unfold Buffered.reading
  rw [hpc]
  rfl

theorem Buffered.inOrder_read {t : ℕ} {spurious : Bool} {i : ℤ} {value : T}
    (hin : s.inOrder (.advance t spurious) = true) (hpc : s.threads t = some (.read i))
    (hhead : s.head = i) : s.threads 0 ≠ some (.write value i) := by
  intro h0
  simp [Buffered.inOrder, hpc, h0, hhead, BufferedPc.writesTo] at hin

theorem Buffered.inOrder_write {t : ℕ} {spurious : Bool} {i : ℤ} {value : T}
    (hin : s.inOrder (.advance t spurious) = true) (hpc : s.threads t = some (.write value i))
    (hhead : s.head = i + 1) : s.threads 1 ≠ some (.read i) := by
  intro h1
  simp [Buffered.inOrder, hpc, h1, hhead, BufferedPc.readsFrom] at hin

/-- The producer claims cell `m_head`. -/
theorem SpscInv.claim_push (h : SpscInv s) {value : T}
    (hpc : s.threads 0 = some (.pushCas value s.head)) :
    SpscInv { s.goto 0 (.write value s.head) with
      head := s.head + 1, claimed := s.claimed ++ [value] } := by
  have hold : s.writing = none := Buffered.writing_of hpc
  generalize hs : ({ s.goto 0 (.write value s.head) with
    head := s.head + 1, claimed := s.claimed ++ [value] } : Buffered T) = s'
  have hthr : s'.threads = Function.update s.threads 0 (some (.write value s.head)) := by
    rw [← hs]; rfl
  obtain ⟨hw, hr⟩ := Buffered.producer_view hthr
  have hw : s'.writing = some (s.head, value) := hw
  have hhead : s'.head = s.head + 1 := by rw [← hs]
  have hbuf : s'.buffer = s.buffer := by rw [← hs]; rfl
  have hset := Buffered.settled_of_none hold
  have hset' : s'.settled = Function.update s.buffer s.head value := by
    unfold Buffered.settled; rw [hw, hbuf]
  have hp := h.placed
  unfold Buffered.Placed at hp
  rw [hold] at hp
  refine ⟨?_, ?_, ?_, ?_, ?_⟩
  · rw [hthr]
    exact h.roles.update_producer fun pc e => by cases e; rfl
  · have := h.nonneg
    omega
  · unfold Buffered.Placed
    rw [hw, hr, hhead]
    cases hrd : s.reading with
    | none => rfl
    | some j => rw [hrd] at hp; exact ⟨hp, .inr rfl⟩
  · rw [hw]
    have hrec := h.records
    rw [hold] at hrec
    rw [← hs]
    show s.claimed ++ [value] = s.pushed ++ [value]
    rw [hrec]
    exact congrArg (· ++ [value]) (List.append_nil _)
  · -- What a pending read is owed stays in its cell, which is no longer the cell `m_head`.
    have howed : s'.owed = s.owed := by
      unfold Buffered.owed
      rw [hr, hhead, hset, hbuf]
      cases hrd : s.reading with
      | none => rfl
      | some j =>
        rw [hrd] at hp
        have hne : ¬ s.head + 1 = j := by have : s.head = j := hp; omega
        simp only [if_neg hne, ite_self]
    have hlow : below s'.settled s.head = below s.settled s.head := by
      refine below_congr fun k hk => ?_
      rw [hset, hset', Function.update_of_ne (by omega)]
    have hpop : s'.popped = s.popped := by rw [← hs]; rfl
    have hcl : s'.claimed = s.claimed ++ [value] := by rw [← hs]
    rw [howed, hhead, below_succ _ h.nonneg, hlow, hset', Function.update_self, hpop, hcl,
      ← Multiset.coe_add, h.balance, add_assoc (↑s.popped + s.owed)]
    rfl

/-- The consumer claims the cell below `m_head`. -/
theorem SpscInv.claim_pop (h : SpscInv s) (hpc : s.threads 1 = some (.popCas s.head)) :
    SpscInv { s.goto 1 (.read (s.head - 1)) with
      head := s.head - 1, taken := s.taken + 1 } := by
  have hold : s.reading = none := Buffered.reading_of hpc
  have hpos : 0 ≤ s.head - 1 := by
    have := h.nonneg
    have := h.roles.loaded s.head hpc
    omega
  generalize hs : ({ s.goto 1 (.read (s.head - 1)) with
    head := s.head - 1, taken := s.taken + 1 } : Buffered T) = s'
  have hthr : s'.threads = Function.update s.threads 1 (some (.read (s.head - 1))) := by
    rw [← hs]; rfl
  obtain ⟨hr, hw⟩ := Buffered.consumer_view hthr
  have hr : s'.reading = some (s.head - 1) := hr
  have hhead : s'.head = s.head - 1 := by rw [← hs]
  have hset : s'.settled = s.settled := Buffered.settled_congr hw (by rw [← hs]; rfl)
  have hp := h.placed
  unfold Buffered.Placed at hp
  rw [hold] at hp
  refine ⟨?_, ?_, ?_, ?_, ?_⟩
  · rw [hthr]
    exact h.roles.update_consumer (fun pc e => by cases e; rfl) fun top e => by cases e
  · rw [hhead]
    exact hpos
  · unfold Buffered.Placed
    rw [hw, hr, hhead]
    cases hwr : s.writing with
    | none => rfl
    | some w =>
      rw [hwr] at hp
      have hi : s.head = w.1 + 1 := hp
      exact ⟨by omega, .inl (by omega)⟩
  · rw [hw, ← hs]
    exact h.records
  · have howed := Buffered.owed_of_none hold
    have howed' : s'.owed = {s.settled (s.head - 1)} := by
      unfold Buffered.owed
      rw [hr, hhead, hset]
      simp only [if_true]
    have hbelow := below_succ s.settled hpos
    rw [Int.sub_add_cancel] at hbelow
    have hpop : s'.popped = s.popped := by rw [← hs]; rfl
    have hcl : s'.claimed = s.claimed := by rw [← hs]; rfl
    rw [howed', hhead, hset, hpop, hcl, h.balance, howed, add_zero, hbelow, add_assoc,
      add_comm (below s.settled (s.head - 1))]

/-- The producer writes its cell; no read of it that was claimed before is pending. -/
theorem SpscInv.write_cell (h : SpscInv s) {value : T} {i : ℤ}
    (hpc : s.threads 0 = some (.write value i))
    (hin : s.head = i + 1 → s.threads 1 ≠ some (.read i)) :
    SpscInv { s.leave 0 with
      buffer := Function.update s.buffer i value, pushed := s.pushed ++ [value] } := by
  have hold : s.writing = some (i, value) := Buffered.writing_of hpc
  generalize hs : ({ s.leave 0 with
    buffer := Function.update s.buffer i value, pushed := s.pushed ++ [value] } : Buffered T) = s'
  have hthr : s'.threads = Function.update s.threads 0 none := by rw [← hs]; rfl
  obtain ⟨hw, hr⟩ := Buffered.producer_view hthr
  have hhead : s'.head = s.head := by rw [← hs]; rfl
  have hset : s'.settled = s.settled := by
    unfold Buffered.settled
    rw [hw, hold, ← hs]
    rfl
  have hbuf : s'.buffer = s.settled := (Buffered.settled_of_none hw).symm.trans hset
  -- A pending read is one that was claimed after this write.
  have hread : ∀ j, s.reading = some j → s.head = j := by
    intro j hj
    have hp := h.placed
    unfold Buffered.Placed at hp
    rw [hold, hj] at hp
    obtain ⟨rfl, hcase⟩ := hp
    rcases hcase with hcase | hcase
    · exact hcase
    · refine absurd ?_ (hin hcase)
      unfold Buffered.reading at hj
      obtain ⟨pc, hpc1, hreads⟩ := Option.bind_eq_some_iff.mp hj
      cases pc with
      | read k => cases hreads; exact hpc1
      | _ => cases hreads
  refine ⟨?_, ?_, ?_, ?_, ?_⟩
  · rw [hthr]
    exact h.roles.update_producer fun pc e => by cases e
  · rw [hhead]
    exact h.nonneg
  · unfold Buffered.Placed
    rw [hw, hr, hhead]
    cases hrd : s.reading with
    | none => trivial
    | some j => exact hread j hrd
  · have hrec := h.records
    rw [hold] at hrec
    rw [hw, ← hs]
    exact hrec.trans (List.append_nil _).symm
  · have howed : s'.owed = s.owed := by
      unfold Buffered.owed
      rw [hr, hhead, hset, hbuf]
      cases hrd : s.reading with
      | none => rfl
      | some j => simp only [if_pos (hread j hrd)]
    have hpop : s'.popped = s.popped := by rw [← hs]; rfl
    have hcl : s'.claimed = s.claimed := by rw [← hs]; rfl
    rw [howed, hhead, hset, hpop, hcl]
    exact h.balance

/-- The consumer reads its cell; no write of it that was claimed before is pending. -/
theorem SpscInv.read_cell (h : SpscInv s) {j : ℤ} (hpc : s.threads 1 = some (.read j))
    (hin : s.head = j → ∀ value, s.threads 0 ≠ some (.write value j)) :
    SpscInv { s.leave 1 with popped := s.popped ++ [s.buffer j] } := by
  have hold : s.reading = some j := Buffered.reading_of hpc
  generalize hs : ({ s.leave 1 with popped := s.popped ++ [s.buffer j] } : Buffered T) = s'
  have hthr : s'.threads = Function.update s.threads 1 none := by rw [← hs]; rfl
  obtain ⟨hr, hw⟩ := Buffered.consumer_view hthr
  have hhead : s'.head = s.head := by rw [← hs]; rfl
  have hset : s'.settled = s.settled := Buffered.settled_congr hw (by rw [← hs]; rfl)
  -- A pending write is one that was claimed after this read.
  have hwrite : ∀ w, s.writing = some w → w.1 = j ∧ s.head = w.1 + 1 := by
    intro w hwr
    have hp := h.placed
    unfold Buffered.Placed at hp
    rw [hold, hwr] at hp
    obtain ⟨hij, hcase⟩ : w.1 = j ∧ (s.head = w.1 ∨ s.head = w.1 + 1) := hp
    refine ⟨hij, ?_⟩
    rcases hcase with hcase | hcase
    · unfold Buffered.writing at hwr
      obtain ⟨pc, hpc0, hwrites⟩ := Option.bind_eq_some_iff.mp hwr
      cases pc with
      | write value k =>
        cases hwrites
        exact absurd (hij ▸ hpc0) (hin (hcase.trans hij) value)
      | _ => cases hwrites
    · exact hcase
  refine ⟨?_, ?_, ?_, ?_, ?_⟩
  · rw [hthr]
    exact h.roles.update_consumer (fun pc e => by cases e) fun top e => by cases e
  · rw [hhead]
    exact h.nonneg
  · unfold Buffered.Placed
    rw [hw, hr, hhead]
    cases hwr : s.writing with
    | none => trivial
    | some w => exact (hwrite w hwr).2
  · rw [hw, ← hs]
    exact h.records
  · have howed : s.owed = {s.buffer j} := by
      unfold Buffered.owed
      rw [hold]
      cases hwr : s.writing with
      | none =>
        simp only [Buffered.settled_of_none hwr, ite_self]
      | some w =>
        obtain ⟨hij, hi⟩ := hwrite w hwr
        have hne : ¬ s.head = j := by omega
        simp only [if_neg hne]
    have howed' : s'.owed = 0 := Buffered.owed_of_none hr
    have hpop : s'.popped = s.popped ++ [s.buffer j] := by rw [← hs]
    have hcl : s'.claimed = s.claimed := by rw [← hs]; rfl
    rw [howed', hhead, hset, hpop, hcl, h.balance, howed, add_zero, ← Multiset.coe_add]
    rfl

/-! ### Steps and runs -/

theorem SpscInv.producer_step (h : SpscInv s) (capacity : ℕ) (spurious : Bool) {pc : BufferedPc T}
    (hpc : s.threads 0 = some pc) (hin : s.inOrder (.advance 0 spurious) = true) :
    SpscInv (s.advance capacity 0 spurious pc) := by
  have hrole := h.roles.producer pc hpc
  have hold := Buffered.writing_of hpc
  cases pc with
  | pushLoad value =>
      simp only [Buffered.advance]
      split
      · exact h.producer_moves none hold fun _ e => by cases e
      · exact h.producer_moves (some (.pushCas value s.head)) hold fun _ e => by
          cases e
          exact ⟨rfl, rfl⟩
  | pushCas value top =>
      simp only [Buffered.advance]
      split
      next hcas =>
        obtain ⟨rfl, -⟩ := hcas
        exact h.claim_push hpc
      next =>
        exact h.producer_moves (some (.pushLoad value)) hold fun _ e => by
          cases e
          exact ⟨rfl, rfl⟩
  | write value i => exact h.write_cell hpc (Buffered.inOrder_write hin hpc)
  | _ => cases hrole

theorem SpscInv.consumer_step (h : SpscInv s) (capacity : ℕ) (spurious : Bool) {pc : BufferedPc T}
    (hpc : s.threads 1 = some pc) (hin : s.inOrder (.advance 1 spurious) = true) :
    SpscInv (s.advance capacity 1 spurious pc) := by
  have hrole := h.roles.consumer pc hpc
  have hold := Buffered.reading_of hpc
  cases pc with
  | popLoad =>
      simp only [Buffered.advance]
      split
      · exact h.consumer_moves none hold (fun _ e => by cases e) fun _ e => by cases e
      next hne =>
        exact h.consumer_moves (some (.popCas s.head)) hold
          (fun _ e => by cases e; exact ⟨rfl, rfl⟩) fun _ e => by cases e; exact hne
  | popCas top =>
      simp only [Buffered.advance]
      split
      next hcas =>
        obtain ⟨rfl, -⟩ := hcas
        exact h.claim_pop hpc
      next =>
        exact h.consumer_moves (some .popLoad) hold (fun _ e => by cases e; exact ⟨rfl, rfl⟩)
          fun _ e => by cases e
  | read i => exact h.read_cell hpc fun hhead _ => Buffered.inOrder_read hin hpc hhead
  | _ => cases hrole

/-- **A step of the producer or of the consumer that accesses its cell in order keeps the
    invariant.** -/
theorem SpscInv.step (h : SpscInv s) {capacity : ℕ} {a : BufferedAction T} (hspsc : a.spsc = true)
    (hin : s.inOrder a = true) (hs : s.step capacity a = some s') : SpscInv s' := by
  cases a with
  | push t value =>
      obtain rfl : t = 0 := of_decide_eq_true hspsc
      cases hpc : s.threads 0 with
      | some pc => simp only [Buffered.step, hpc, reduceCtorEq] at hs
      | none =>
        simp only [Buffered.step, hpc, Option.some.injEq] at hs
        have hold : s.writing = none := by unfold Buffered.writing; rw [hpc]; rfl
        rw [← hs]
        exact h.producer_moves _ hold fun _ e => by cases e; exact ⟨rfl, rfl⟩
  | pop t =>
      obtain rfl : t = 1 := of_decide_eq_true hspsc
      cases hpc : s.threads 1 with
      | some pc => simp only [Buffered.step, hpc, reduceCtorEq] at hs
      | none =>
        simp only [Buffered.step, hpc, Option.some.injEq] at hs
        have hold : s.reading = none := by unfold Buffered.reading; rw [hpc]; rfl
        rw [← hs]
        exact h.consumer_moves _ hold (fun _ e => by cases e; exact ⟨rfl, rfl⟩)
          fun _ e => by cases e
  | advance t spurious =>
      obtain ⟨pc, hpc, rfl⟩ := Option.map_eq_some_iff.mp hs
      rcases h.roles.others t (by rw [hpc]; exact Option.some_ne_none pc) with rfl | rfl
      · exact h.producer_step capacity spurious hpc hin
      · exact h.consumer_step capacity spurious hpc hin

theorem SpscInv.transferred (h : SpscInv s) : s.Transferred := by
  have hle : (↑s.popped : Multiset T) ≤ ↑s.claimed := by
    rw [h.balance, add_assoc]
    exact Multiset.le_add_right _ _
  refine ⟨fun x hx => ?_, hle, fun hidle => ?_⟩
  · exact Multiset.mem_coe.mp (Multiset.mem_of_le hle (Multiset.mem_coe.mpr hx))
  · have hw : s.writing = none := by unfold Buffered.writing; rw [hidle]; rfl
    have hr : s.reading = none := by unfold Buffered.reading; rw [hidle]; rfl
    have hset := Buffered.settled_of_none hw
    have howed := Buffered.owed_of_none hr
    have hrec : s.claimed = s.pushed := by
      rw [h.records, hw]
      exact List.append_nil _
    rw [← hrec, h.balance, howed, add_zero, hset]

end Spsc

/-- **One producer and one consumer that access each cell in the order of their claims transfer
    every value exactly once**, for every capacity and every interleaving. -/
theorem transferred_inOrder {T : Type*} [Inhabited T] (capacity : ℕ) {s : Buffered T}
    (h : ReachWhere (Buffered.step capacity) (fun s a => a.spsc = true ∧ s.inOrder a = true)
      Buffered.start s) :
    s.Transferred :=
  (h.invariant spscInv_start fun _ _ _ hi hc hs => hi.step hc.1 hc.2 hs).transferred

/-! ## 4. Schedules -/

/-- The steps of a call of thread `t` that meets no interference: load, exchange, access. -/
def threeSteps (t : ℕ) : List (BufferedAction ℕ) := List.replicate 3 (.advance t false)

/-- The producer pushes 7 and 8; its exchange fails once and the consumer pops in between. -/
def inTurn : List (BufferedAction ℕ) :=
  .push 0 7 :: threeSteps 0 ++ [.push 0 8, .advance 0 false, .pop 1] ++ threeSteps 1 ++
    .advance 0 false :: threeSteps 0

theorem transferred_inOrder_inTurn :
    ∃ s, ReachWhere (Buffered.step 4) (fun s a => a.spsc = true ∧ s.inOrder a = true)
        Buffered.start s ∧
      s.popped = [7] ∧ s.pushed = [7, 8] ∧ s.head = 1 ∧ s.Transferred := by
  obtain ⟨s, hs, hp⟩ := reach_of_run (Buffered.step 4) (fun s a => a.spsc && s.inOrder a)
    Buffered.start inTurn (fun s => decide (s.popped = [7] ∧ s.pushed = [7, 8] ∧ s.head = 1))
    (by decide +kernel)
  have hs' := hs.mono fun _ _ hc => Bool.and_eq_true_iff.mp hc
  obtain ⟨hpop, hpush, hhead⟩ := of_decide_eq_true hp
  exact ⟨s, hs', hpop, hpush, hhead, transferred_inOrder 4 hs'⟩

/-- The pop claims and reads the cell between the exchange and the write of the push. -/
def popOvertakes : List (BufferedAction ℕ) :=
  [.push 0 7, .advance 0 false, .advance 0 false, .pop 1] ++ threeSteps 1 ++ [.advance 0 false]

/-- The push claims and writes the cell between the exchange and the read of the pop. -/
def pushOvertakes : List (BufferedAction ℕ) :=
  .push 0 7 :: threeSteps 0 ++ [.pop 1, .advance 1 false, .advance 1 false] ++
    .push 0 8 :: threeSteps 0 ++ [.advance 1 false] ++ .pop 1 :: threeSteps 1

/-- **Out of order the stack returns a value nobody pushed, and loses one value and returns
    another twice**, with one producer and one consumer and no call left in progress. -/
theorem transfer_fails :
    (∃ s : Buffered ℕ, ReachWhere (Buffered.step 4) (fun _ a => a.spsc = true) Buffered.start s ∧
      (s.threads 0 = none ∧ s.threads 1 = none) ∧
      s.claimed = [7] ∧ s.pushed = [7] ∧ s.popped = [0] ∧ s.head = 0 ∧ ¬ s.Transferred) ∧
    (∃ s : Buffered ℕ, ReachWhere (Buffered.step 4) (fun _ a => a.spsc = true) Buffered.start s ∧
      (s.threads 0 = none ∧ s.threads 1 = none) ∧
      s.claimed = [7, 8] ∧ s.pushed = [7, 8] ∧ s.popped = [8, 8] ∧ s.head = 0 ∧
      ¬ s.Transferred) := by
  refine ⟨?_, ?_⟩
  · obtain ⟨s, hs, hp⟩ := reach_of_run (Buffered.step 4) (fun _ a => a.spsc) Buffered.start
      popOvertakes
      (fun s => (s.threads 0).isNone && (s.threads 1).isNone &&
        decide (s.claimed = [7] ∧ s.pushed = [7] ∧ s.popped = [0] ∧ s.head = 0))
      (by decide +kernel)
    simp only [Bool.and_eq_true, Option.isNone_iff_eq_none, decide_eq_true_eq] at hp
    obtain ⟨hidle, hcl, hpush, hpop, hhead⟩ := hp
    refine ⟨s, hs, hidle, hcl, hpush, hpop, hhead, fun h => ?_⟩
    have := h.passed 0
    rw [hpop, hcl] at this
    exact absurd this (by decide)
  · obtain ⟨s, hs, hp⟩ := reach_of_run (Buffered.step 4) (fun _ a => a.spsc) Buffered.start
      pushOvertakes
      (fun s => (s.threads 0).isNone && (s.threads 1).isNone &&
        decide (s.claimed = [7, 8] ∧ s.pushed = [7, 8] ∧ s.popped = [8, 8] ∧ s.head = 0))
      (by decide +kernel)
    simp only [Bool.and_eq_true, Option.isNone_iff_eq_none, decide_eq_true_eq] at hp
    obtain ⟨hidle, hcl, hpush, hpop, hhead⟩ := hp
    refine ⟨s, hs, hidle, hcl, hpush, hpop, hhead, fun h => ?_⟩
    have := h.once
    rw [hpop, hcl] at this
    exact absurd this (by decide)

end HseMultithreading.LockFree
