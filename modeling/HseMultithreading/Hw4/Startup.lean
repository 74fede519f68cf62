/-
  File:      HseMultithreading/Hw4/Startup.lean
  Subject:   THE START of the hw4 programs: one process creates the shared-memory object and runs
             `init_queue` on it, a second one opens the object in the meantime
             (`hw4/shm_utils.cpp`, the heads of both `main`s).

  * `initWrites` -- `init_queue` as the list of its stores in program order, and `init_all`: one
    after the other they amount to `initQueue`.
  * `Startup`, `Startup.step` -- the creator (`shm_open` with `O_EXCL`, `ftruncate`, `mmap`, then
    the stores) and the opener (`shm_open`, `mmap`, the four loads of `is_queue_valid`, then its
    calls on the queue), with every failure path. The object has size 0 until `ftruncate` and zero
    bytes afterwards. An access beyond the size kills the opener.
  * `Startup.Safe` -- the opener stays inside the object, takes the queue for valid only when it
    is initialised, and no message it was told is queued gets lost.
  * `startup_safe` -- safety holds as long as the opener's first load comes after `ftruncate` and
    its last one not between the store of `max_payload_size` and the end of `init_queue`; and a
    step that breaks this leads into an unsafe state.
  * `startup_unsafe` -- the three ways in which it fails.
-/
import HseMultithreading.Hw4.Delivery

namespace HseMultithreading.Hw4

open StepSystem Bag

/-! ## 1. `init_queue`, one store at a time -/

/-- The stores of `init_queue`. -/
inductive InitWrite where
  | magic | version | capacity | maxPayloadSize | writeIndex | readIndex
  | state (i : Fin queueCapacity)
  | type (i : Fin queueCapacity)
  | length (i : Fin queueCapacity)
  | byte (i : Fin queueCapacity) (k : Fin maxPayloadSize)
  deriving DecidableEq

/-- The effect of one store. -/
def InitWrite.apply (q : SharedQueueLayout) : InitWrite → SharedQueueLayout
  | .magic => { q with queueMeta := { q.queueMeta with magic := protocolMagic } }
  | .version => { q with queueMeta := { q.queueMeta with version := protocolVersion } }
  | .capacity => { q with queueMeta := { q.queueMeta with capacity := UInt32.ofNat queueCapacity } }
  | .maxPayloadSize =>
    { q with queueMeta := { q.queueMeta with maxPayloadSize := UInt32.ofNat Hw4.maxPayloadSize } }
  | .writeIndex => { q with writeIndex := 0 }
  | .readIndex => { q with readIndex := 0 }
  | .state i => q.setSlot i { q.slots i with state := SlotState.empty.code }
  | .type i =>
    q.setSlot i { q.slots i with
      header := { (q.slots i).header with type := MessageType.unknown.code } }
  | .length i => q.setSlot i { q.slots i with header := { (q.slots i).header with length := 0 } }
  | .byte i k => q.setSlot i { q.slots i with payload := (q.slots i).payload.put k 0 }

/-- The body of the loop over the slots; the `memset` is one store a byte. -/
def initSlot (i : Fin queueCapacity) : List InitWrite :=
  [.state i, .type i, .length i] ++ (List.finRange maxPayloadSize).map (.byte i)

/-- The loop over the slots. -/
def initSlots : List InitWrite := (List.finRange queueCapacity).flatMap initSlot

/-- **`init_queue` in program order.** -/
def initWrites : List InitWrite :=
  [.magic, .version, .capacity, .maxPayloadSize, .writeIndex, .readIndex] ++ initSlots

theorem setSlot_slots (q : SharedQueueLayout) (i : Fin queueCapacity) :
    q.setSlot i (q.slots i) = q := by
  unfold SharedQueueLayout.setSlot
  rw [Function.update_eq_self]

theorem init_bytes (i : Fin queueCapacity) (ks : List (Fin maxPayloadSize)) :
    ∀ q : SharedQueueLayout, (ks.map (.byte i)).foldl InitWrite.apply q =
      q.setSlot i { q.slots i with
        payload := fun k => if k ∈ ks then 0 else (q.slots i).payload k } := by
  induction ks with
  | nil => intro q; exact (setSlot_slots q i).symm
  | cons k ks ih =>
      intro q
      rw [List.map_cons, List.foldl_cons, ih]
      simp only [InitWrite.apply, setSlot_slots_self, setSlot_setSlot]
      congr 2
      funext j
      by_cases hj : j ∈ ks
      · simp [hj]
      · by_cases e : j = k
        · subst e
          simp [Payload.put]
        · simp [hj, e, Payload.put]

theorem init_slot (q : SharedQueueLayout) (i : Fin queueCapacity) :
    (initSlot i).foldl InitWrite.apply q = q.setSlot i .cleared := by
  unfold initSlot
  rw [List.foldl_append, init_bytes]
  simp only [List.foldl_cons, List.foldl_nil, InitWrite.apply, setSlot_slots_self, setSlot_setSlot,
    List.mem_finRange, if_true]
  rfl

/-- The loop clears the slots it visits and touches nothing else. -/
theorem init_slots (l : List (Fin queueCapacity)) :
    ∀ q : SharedQueueLayout, (l.flatMap initSlot).foldl InitWrite.apply q =
      { q with slots := fun j => if j ∈ l then .cleared else q.slots j } := by
  induction l with
  | nil => intro q; rfl
  | cons i l ih =>
      intro q
      rw [List.flatMap_cons, List.foldl_append, init_slot, ih]
      unfold SharedQueueLayout.setSlot
      congr 1
      funext j
      by_cases hj : j ∈ l
      · simp [hj]
      · by_cases e : j = i
        · subst e
          simp [hj]
        · simp [hj, e]

/-- **The stores of `init_queue`, one after the other, are `initQueue`.** -/
theorem init_all (q : SharedQueueLayout) : initWrites.foldl InitWrite.apply q = initQueue q := by
  unfold initWrites initSlots
  rw [List.foldl_append, init_slots]
  simp only [List.mem_finRange, if_true]
  rfl

/-! ## 2. Two processes -/

/-- `get_queue_memory_size`: the size of `SharedQueueLayout`. Four words of meta data, two
    indices, and sixteen slots of a state word, two header words and 256 bytes. -/
def queueMemorySize : ℕ := 16 + 8 + 8 + queueCapacity * (4 + 8 + maxPayloadSize)

/-- The `queue_size` of both `main`s: an argument below the size of the layout is rejected. -/
structure QueueSize where
  bytes : ℕ
  large : queueMemorySize ≤ bytes

/-- What the creator does NEXT; `initQueue []` stands behind the last store of `init_queue`. -/
inductive CreatorPc where
  | shmOpen | ftruncate | mmap
  | initQueue (rest : List InitWrite)
  | failed

/-- What the opener does NEXT: `producer_hw4` first tries to create the object, `consumer_hw4`
    opens it straight away. Behind `is_queue_valid` it is `running`; it is `closed` once it has
    given up, and `killed` after an access beyond the end of the object. -/
inductive OpenerPc where
  | shmOpenExcl | shmOpen | mmap
  | readMagic | readVersion | readCapacity | readMaxPayloadSize
  | running | closed | killed
  deriving DecidableEq

inductive Role where
  | producer | consumer

/-- The calls a process makes on a queue it has found valid. -/
def Role.allows : Role → Action → Bool
  | .producer, .push p _ | .producer, .produce p => p == 0
  | .consumer, .pop _ | .consumer, .consume => true
  | _, _ => false

/-- The object (whether the name is bound to it, its size, its memory) and the two processes. The
    memory and the opener's calls on it are the `system`. -/
structure Startup where
  bound : Bool
  size : ℕ
  creator : CreatorPc
  role : Role
  opener : OpenerPc
  system : System
  beyond : Bool

/-- Memory without a single byte written. -/
def SharedQueueLayout.zero : SharedQueueLayout :=
  ⟨⟨0, 0, 0, 0⟩, 0, 0, fun _ => ⟨0, ⟨0, 0⟩, fun _ => 0⟩⟩

/-- Nobody has made a call yet. -/
def System.idle (q : SharedQueueLayout) : System := ⟨q, fun _ => none, fun _ => false, none, .start⟩

def Startup.start (role : Role) : Startup :=
  { bound := false
    size := 0
    creator := .shmOpen
    role := role
    opener := match role with
      | .producer => .shmOpenExcl
      | .consumer => .shmOpen
    system := .idle .zero
    beyond := false }

/-- The next step of the creator; `ok` is the outcome of a call to the operating system. A failed
    `ftruncate` or `mmap` unlinks the name. -/
def Startup.create (n : QueueSize) (s : Startup) (ok : Bool) : Option Startup :=
  match s.creator with
  | .shmOpen =>
    if ok then some { s with bound := true, creator := .ftruncate }
    else some { s with creator := .failed }
  | .ftruncate =>
    if ok then some { s with size := n.bytes, creator := .mmap }
    else some { s with bound := false, creator := .failed }
  | .mmap =>
    if ok then some { s with creator := .initQueue initWrites }
    else some { s with bound := false, creator := .failed }
  | .initQueue (w :: rest) =>
    some { s with
      system := { s.system with queue := w.apply s.system.queue }
      creator := .initQueue rest }
  | .initQueue [] => none
  | .failed => none

/-- A load of the opener: beyond the end of the object it is the last thing the process does. -/
def Startup.load (s : Startup) (next : OpenerPc) : Startup :=
  if queueMemorySize ≤ s.size then { s with opener := next }
  else { s with opener := .killed, beyond := true }

/-- The next step of the opener up to the end of `is_queue_valid`. Its first `shm_open` with
    `O_EXCL` is to fail with `EEXIST`: otherwise it would be the creator. -/
def Startup.open (s : Startup) (ok : Bool) : Option Startup :=
  let words := s.system.queue.queueMeta
  match s.opener with
  | .shmOpenExcl =>
    if ok then if s.bound then some { s with opener := .shmOpen } else none
    else some { s with opener := .closed }
  | .shmOpen => some { s with opener := if ok && s.bound then .mmap else .closed }
  | .mmap => some { s with opener := if ok then .readMagic else .closed }
  | .readMagic => some (s.load (if words.magic ≠ protocolMagic then .closed else .readVersion))
  | .readVersion =>
    some (s.load (if words.version ≠ protocolVersion then .closed else .readCapacity))
  | .readCapacity =>
    some (s.load (if words.capacity ≠ UInt32.ofNat queueCapacity then .closed
      else .readMaxPayloadSize))
  | .readMaxPayloadSize =>
    some (s.load (if words.maxPayloadSize ≠ UInt32.ofNat maxPayloadSize then .closed else .running))
  | .running | .closed | .killed => none

/-- The opener makes a call on the queue, or takes the next step of one. -/
def Startup.call (s : Startup) (a : Action) : Option Startup :=
  if s.opener = .running ∧ s.role.allows a = true then
    if queueMemorySize ≤ s.size then (s.system.step a).map fun system => { s with system := system }
    else some { s with opener := .killed, beyond := true }
  else none

inductive StartupAction where
  | creator (ok : Bool)
  | opener (ok : Bool)
  | call (a : Action)

def Startup.step (n : QueueSize) (s : Startup) : StartupAction → Option Startup
  | .creator ok => s.create n ok
  | .opener ok => s.open ok
  | .call a => s.call a

/-- The messages whose push returned `true`. -/
def History.accepted (h : History) : List Message :=
  (h.published.filter (·.tag ∈ h.returned)).map Entry.message

/-- **A safe start**: the opener has stayed inside the object; it is past `is_queue_valid` only if
    `init_queue` is over; and once it is over, every message that was accepted is consumed or
    READY. -/
structure Startup.Safe (s : Startup) : Prop where
  inside : s.beyond = false
  initialised : s.opener = .running → s.creator = .initQueue []
  kept : s.creator = .initQueue [] →
    (↑s.system.history.accepted : Multiset Message) ≤
      ↑(s.system.history.consumed.map (·.entry.message)) + bagOf s.system.readyMessage

/-- **The opener looks at the right moment**: at `magic` after the `ftruncate`, and at
    `max_payload_size` not between its store and the end of `init_queue`. -/
def Startup.InTime (s : Startup) : StartupAction → Prop
  | .opener _ => (s.opener = .readMagic → queueMemorySize ≤ s.size) ∧
      (s.opener = .readMaxPayloadSize → ∀ rest, s.creator = .initQueue rest →
        .maxPayloadSize ∉ rest → rest = [])
  | _ => True

/-! ## 3. Safety -/

/-- The stores still to come. -/
def CreatorPc.rest : CreatorPc → List InitWrite
  | .initQueue rest => rest
  | _ => initWrites

/-- The memory of a queue that is being set up: the stores to come complete it, and the word that
    the opener checks last is written exactly when its store is not among them. -/
structure SetUp (q : SharedQueueLayout) (rest : List InitWrite) : Prop where
  completes : rest.foldl InitWrite.apply q = .fresh
  unwritten : .maxPayloadSize ∈ rest → q.queueMeta.maxPayloadSize = 0
  written : .maxPayloadSize ∉ rest → q.queueMeta.maxPayloadSize = UInt32.ofNat maxPayloadSize
  once : rest.count .maxPayloadSize ≤ 1

/-- **The invariant of a start whose opener looks at the right moments.** -/
structure StartupInv (s : Startup) : Prop where
  inside : s.beyond = false
  sized : s.creator = .mmap ∨ (∃ rest, s.creator = .initQueue rest) → queueMemorySize ≤ s.size
  opened : s.opener = .readVersion ∨ s.opener = .readCapacity ∨ s.opener = .readMaxPayloadSize ∨
    s.opener = .running → queueMemorySize ≤ s.size
  settingUp : s.creator ≠ .initQueue [] →
    ∃ q, s.system = .idle q ∧ SetUp q s.creator.rest
  initialised : s.opener = .running → s.creator = .initQueue []
  reached : s.creator = .initQueue [] → Reach System.step (.start .zero) s.system

theorem count_initSlots : initSlots.count .maxPayloadSize = 0 := by
  refine List.count_eq_zero.mpr fun h => ?_
  obtain ⟨i, _, hi⟩ := List.mem_flatMap.mp h
  simp [initSlot] at hi

theorem setUp_initWrites : SetUp .zero initWrites where
  completes := init_all _
  unwritten _ := rfl
  written h := absurd (by simp [initWrites]) h
  once := by
    unfold initWrites
    rw [List.count_append, count_initSlots]
    decide

/-- The word the opener checks last is written by its own store only. -/
theorem apply_maxPayloadSize (q : SharedQueueLayout) {w : InitWrite} (h : w ≠ .maxPayloadSize) :
    (w.apply q).queueMeta.maxPayloadSize = q.queueMeta.maxPayloadSize := by
  cases w <;> first | rfl | exact absurd rfl h

theorem SetUp.next {q : SharedQueueLayout} {w : InitWrite} {rest : List InitWrite}
    (h : SetUp q (w :: rest)) : SetUp (w.apply q) rest := by
  have honce := h.once
  by_cases e : w = .maxPayloadSize
  · subst e
    rw [List.count_cons_self] at honce
    have hno : InitWrite.maxPayloadSize ∉ rest := List.count_eq_zero.mp (by omega)
    exact ⟨h.completes, fun hm => absurd hm hno, fun _ => rfl, by omega⟩
  · rw [List.count_cons_of_ne e] at honce
    refine ⟨h.completes, fun hm => ?_, fun hm => ?_, honce⟩
    · rw [apply_maxPayloadSize q e]
      exact h.unwritten (List.mem_cons_of_mem _ hm)
    · rw [apply_maxPayloadSize q e]
      refine h.written fun hc => ?_
      rcases List.mem_cons.mp hc with hc | hc
      · exact e hc.symm
      · exact hm hc

section Steps

variable {s s' : Startup}

theorem startupInv_start (role : Role) : StartupInv (.start role) where
  inside := rfl
  sized h := by rcases h with h | ⟨_, h⟩ <;> cases h
  opened h := by cases role <;> rcases h with h | h | h | h <;> cases h
  settingUp _ := ⟨.zero, rfl, setUp_initWrites⟩
  initialised h := by cases role <;> cases h
  reached h := by cases h

/-- A call of the creator to the operating system: it leaves the memory alone, and whatever is
    still to be stored is all of `init_queue`. -/
theorem StartupInv.system_call (h : StartupInv s) {pc : CreatorPc} {size : ℕ} {bound : Bool}
    (hr : s.creator.rest = initWrites) (hpc : pc.rest = initWrites)
    (hold : s.creator ≠ .initQueue []) (hnew : pc ≠ .initQueue [])
    (hsize : queueMemorySize ≤ s.size → queueMemorySize ≤ size)
    (hsized : pc = .mmap ∨ (∃ rest, pc = .initQueue rest) → queueMemorySize ≤ size) :
    StartupInv { s with bound := bound, size := size, creator := pc } where
  inside := h.inside
  sized := hsized
  opened ho := hsize (h.opened ho)
  settingUp _ := by
    obtain ⟨q, hq, hset⟩ := h.settingUp hold
    exact ⟨q, hq, by rw [hr] at hset; exact hpc ▸ hset⟩
  initialised ho := absurd (h.initialised ho) hold
  reached hf := absurd hf hnew

theorem startupInv_create (n : QueueSize) {ok : Bool} (h : StartupInv s)
    (hs : s.create n ok = some s') : StartupInv s' := by
  have hfail : ∀ bound, s.creator.rest = initWrites → s.creator ≠ .initQueue [] →
      StartupInv { s with bound := bound, creator := .failed } := by
    intro bound hr hold
    refine h.system_call hr rfl hold (fun e => by cases e) id fun hc => ?_
    rcases hc with hc | ⟨_, hc⟩ <;> cases hc
  cases hc : s.creator with
  | shmOpen =>
      simp only [Startup.create, hc] at hs
      split at hs <;> obtain rfl := Option.some.inj hs
      · refine h.system_call (by rw [hc]; rfl) rfl (by simp [hc]) (by simp) id fun e => ?_
        rcases e with e | ⟨_, e⟩ <;> cases e
      · exact hfail _ (by rw [hc]; rfl) (by simp [hc])
  | ftruncate =>
      simp only [Startup.create, hc] at hs
      split at hs <;> obtain rfl := Option.some.inj hs
      · exact h.system_call (by rw [hc]; rfl) rfl (by simp [hc]) (by simp) (fun _ => n.large)
          fun _ => n.large
      · exact hfail _ (by rw [hc]; rfl) (by simp [hc])
  | mmap =>
      simp only [Startup.create, hc] at hs
      split at hs <;> obtain rfl := Option.some.inj hs
      · exact h.system_call (by rw [hc]; rfl) rfl (by simp [hc]) (by simp [initWrites]) id
          fun _ => h.sized (.inl hc)
      · exact hfail _ (by rw [hc]; rfl) (by simp [hc])
  | initQueue rest =>
      cases rest with
      | nil => simp only [Startup.create, hc] at hs; cases hs
      | cons w rest =>
          simp only [Startup.create, hc] at hs
          obtain rfl := Option.some.inj hs
          have hold : s.creator ≠ .initQueue [] := by simp [hc]
          obtain ⟨q, hq, hset⟩ := h.settingUp hold
          rw [hc] at hset
          have hnext : SetUp (w.apply q) rest := SetUp.next hset
          refine ⟨h.inside, fun _ => h.sized (.inr ⟨_, hc⟩), h.opened, fun _ => ?_,
            fun ho => absurd (h.initialised ho) hold, fun hf => ?_⟩
          · exact ⟨w.apply q, by rw [hq]; rfl, hnext⟩
          · -- the last store: what it leaves is the queue that `System.start` starts with
            obtain rfl : rest = [] := CreatorPc.initQueue.inj hf
            have hfresh : w.apply q = .fresh := hnext.completes
            have e : ({ s.system with queue := w.apply s.system.queue } : System) =
                .start .zero := by
              rw [hq]
              show System.idle (w.apply q) = _
              rw [hfresh]
              rfl
            show Reach System.step _ { s.system with queue := w.apply s.system.queue }
            rw [e]
            exact .start
  | failed => simp only [Startup.create, hc] at hs; cases hs

/-- A step of the opener that stays inside the object. -/
theorem StartupInv.opener (h : StartupInv s) {pc : OpenerPc}
    (hopen : pc = .readVersion ∨ pc = .readCapacity ∨ pc = .readMaxPayloadSize ∨ pc = .running →
      queueMemorySize ≤ s.size)
    (hrun : pc = .running → s.creator = .initQueue []) : StartupInv { s with opener := pc } :=
  ⟨h.inside, h.sized, hopen, h.settingUp, hrun, h.reached⟩

/-- A load inside the object that either goes on to `pc` or gives up. -/
theorem StartupInv.load (h : StartupInv s) (hsize : queueMemorySize ≤ s.size) {c : Prop}
    [Decidable c] {pc : OpenerPc} (hrun : ¬ c → pc = .running → s.creator = .initQueue []) :
    StartupInv (s.load (if c then .closed else pc)) := by
  unfold Startup.load
  rw [if_pos hsize]
  refine h.opener (fun _ => hsize) fun e => ?_
  split at e
  · cases e
  · exact hrun (by assumption) e

/-- The last load finds the right word only when `init_queue` is over, or in the middle of it. -/
theorem StartupInv.valid (h : StartupInv s)
    (hv : s.system.queue.queueMeta.maxPayloadSize = UInt32.ofNat maxPayloadSize) :
    ∃ rest, s.creator = .initQueue rest ∧ .maxPayloadSize ∉ rest := by
  by_cases hf : s.creator = .initQueue []
  · exact ⟨[], hf, List.not_mem_nil⟩
  · obtain ⟨q, hq, hset⟩ := h.settingUp hf
    rw [hq] at hv
    have hno : InitWrite.maxPayloadSize ∉ s.creator.rest := by
      intro hm
      have h0 := hset.unwritten hm
      have hv' : q.queueMeta.maxPayloadSize = UInt32.ofNat maxPayloadSize := hv
      rw [h0] at hv'
      exact absurd hv' (by decide)
    have hall : InitWrite.maxPayloadSize ∈ initWrites := by simp [initWrites]
    cases hc : s.creator with
    | initQueue rest => rw [hc] at hno; exact ⟨rest, rfl, hno⟩
    | _ => rw [hc] at hno; exact absurd hall hno

theorem startupInv_open {ok : Bool} (h : StartupInv s) (hc : s.InTime (.opener ok))
    (hs : s.open ok = some s') : StartupInv s' := by
  obtain ⟨hmagic, hmax⟩ := hc
  have hquiet : ∀ pc : OpenerPc, (pc = .shmOpen ∨ pc = .mmap ∨ pc = .readMagic ∨ pc = .closed) →
      StartupInv { s with opener := pc } := by
    intro pc hpc
    refine h.opener (fun e => ?_) (fun e => ?_) <;>
      rcases hpc with rfl | rfl | rfl | rfl <;> simp at e
  cases ho : s.opener with
  | shmOpenExcl =>
      simp only [Startup.open, ho] at hs
      split at hs
      · split at hs
        · obtain rfl := Option.some.inj hs
          exact hquiet _ (.inl rfl)
        · cases hs
      · obtain rfl := Option.some.inj hs
        exact hquiet _ (.inr (.inr (.inr rfl)))
  | shmOpen =>
      simp only [Startup.open, ho] at hs
      obtain rfl := Option.some.inj hs
      refine hquiet _ ?_
      split <;> simp
  | mmap =>
      simp only [Startup.open, ho] at hs
      obtain rfl := Option.some.inj hs
      refine hquiet _ ?_
      split <;> simp
  | readMagic =>
      simp only [Startup.open, ho] at hs
      obtain rfl := Option.some.inj hs
      exact h.load (hmagic ho) fun _ e => by cases e
  | readVersion =>
      simp only [Startup.open, ho] at hs
      obtain rfl := Option.some.inj hs
      exact h.load (h.opened (.inl ho)) fun _ e => by cases e
  | readCapacity =>
      simp only [Startup.open, ho] at hs
      obtain rfl := Option.some.inj hs
      exact h.load (h.opened (.inr (.inl ho))) fun _ e => by cases e
  | readMaxPayloadSize =>
      simp only [Startup.open, ho] at hs
      obtain rfl := Option.some.inj hs
      refine h.load (h.opened (.inr (.inr (.inl ho)))) fun hv _ => ?_
      obtain ⟨rest, hr, hno⟩ := h.valid (Classical.not_not.mp hv)
      rw [hr, hmax ho rest hr hno]
  | running => simp only [Startup.open, ho] at hs; cases hs
  | closed => simp only [Startup.open, ho] at hs; cases hs
  | killed => simp only [Startup.open, ho] at hs; cases hs

theorem startupInv_call {a : Action} (h : StartupInv s) (hs : s.call a = some s') :
    StartupInv s' := by
  unfold Startup.call at hs
  split at hs
  · rename_i hrun
    have hf := h.initialised hrun.1
    rw [if_pos (h.opened (.inr (.inr (.inr hrun.1))))] at hs
    obtain ⟨system, hstep, rfl⟩ := Option.map_eq_some_iff.mp hs
    refine ⟨h.inside, h.sized, h.opened, fun hne => absurd hf hne, h.initialised, fun _ => ?_⟩
    exact .next _ _ a (h.reached hf) trivial hstep
  · cases hs

theorem StartupInv.safe (h : StartupInv s) : s.Safe where
  inside := h.inside
  initialised := h.initialised
  kept hf := by
    rw [← (inv_reach (h.reached hf)).messages, Multiset.coe_le]
    exact (List.filter_sublist.map _).subperm

end Steps

theorem startupInv_reach (n : QueueSize) {role : Role} {s : Startup}
    (h : ReachWhere (Startup.step n) Startup.InTime (.start role) s) : StartupInv s := by
  refine h.invariant (startupInv_start role) fun s a s' hI hc hs => ?_
  cases a with
  | creator ok => exact startupInv_create n hI hs
  | opener ok => exact startupInv_open hI hc hs
  | call a => exact startupInv_call hI hs

/-- A step at the wrong moment leads into an unsafe state. -/
theorem StartupInv.unsafe_of_not_inTime {s s' : Startup} (h : StartupInv s) {n : QueueSize}
    {a : StartupAction} (hs : s.step n a = some s') (hc : ¬ s.InTime a) : ¬ s'.Safe := by
  cases a with
  | creator ok => exact absurd trivial hc
  | call a => exact absurd trivial hc
  | opener ok =>
      intro hsafe
      refine hc ⟨fun ho => ?_, fun ho rest hr hno => ?_⟩
      · -- the load of `magic`: had it been beyond the end, the new state would say so
        by_contra hsize
        simp only [Startup.step, Startup.open, ho, Startup.load, if_neg hsize] at hs
        obtain rfl := Option.some.inj hs
        cases hsafe.inside
      · -- the last load finds the word written, so the opener goes on
        by_contra hne
        have hold : s.creator ≠ .initQueue [] := fun e => hne (CreatorPc.initQueue.inj (hr ▸ e))
        obtain ⟨q, hq, hset⟩ := h.settingUp hold
        rw [hr] at hset
        have hv : s.system.queue.queueMeta.maxPayloadSize = UInt32.ofNat maxPayloadSize := by
          rw [hq]
          exact hset.written hno
        have hsize := h.opened (.inr (.inr (.inl ho)))
        simp only [Startup.step, Startup.open, ho, Startup.load, if_pos hsize, hv, ne_eq,
          not_true_eq_false, if_false] at hs
        obtain rfl := Option.some.inj hs
        exact hold (hsafe.initialised rfl)

/-- **A safe start.** In every interleaving in which the opener looks at the right moments every
    state is safe; and a step at a wrong moment leads into a state that is not. -/
theorem startup_safe (n : QueueSize) (role : Role) {s : Startup}
    (h : ReachWhere (Startup.step n) Startup.InTime (.start role) s) :
    s.Safe ∧ ∀ a s', s.step n a = some s' → ¬ s.InTime a → ¬ s'.Safe := by
  have hI := startupInv_reach n h
  exact ⟨hI.safe, fun a s' hs hc => hI.unsafe_of_not_inTime hs hc⟩

/-- The default size. -/
def QueueSize.default : QueueSize := ⟨queueMemorySize, Nat.le_refl _⟩

/-- The state once the creator has made the stores of `rest`, its last ones. -/
def Startup.finish (s : Startup) (rest : List InitWrite) : Startup :=
  { s with
    creator := .initQueue []
    system := { s.system with queue := rest.foldl InitWrite.apply s.system.queue } }

section Finish

variable (s : Startup) (rest : List InitWrite)

theorem finish_creator : (s.finish rest).creator = .initQueue [] := rfl

theorem finish_queue :
    (s.finish rest).system.queue = rest.foldl InitWrite.apply s.system.queue := rfl

theorem finish_history : (s.finish rest).system.history = s.system.history := rfl

end Finish

/-- The creator alone finishes `init_queue`. -/
theorem creator_finishes (n : QueueSize) (rest : List InitWrite) :
    ∀ s : Startup, s.creator = .initQueue rest →
      ReachWhere (Startup.step n) Startup.InTime s (s.finish rest) := by
  induction rest with
  | nil =>
      intro s hc
      have e : s.finish [] = s := by
        unfold Startup.finish
        rw [← hc]
        rfl
      exact e ▸ .start
  | cons w rest ih =>
      intro s hc
      refine ReachWhere.trans (.next _ _ (.creator true) .start trivial ?_)
        (ih { s with
          creator := .initQueue rest
          system := { s.system with queue := w.apply s.system.queue } } rfl)
      simp only [Startup.step, Startup.create, hc]

/-- The object as the creator leaves it to an opener that has not begun. -/
def Startup.created (role : Role) (n : QueueSize) : Startup :=
  { Startup.start role with
    bound := true, size := n.bytes, creator := .initQueue [], system := .idle .fresh }

theorem reach_created (role : Role) (n : QueueSize) :
    ReachWhere (Startup.step n) Startup.InTime (.start role) (.created role n) := by
  have h1 : ReachWhere (Startup.step n) Startup.InTime (.start role)
      { Startup.start role with
        bound := true, size := n.bytes, creator := .initQueue initWrites } :=
    .next _ _ (.creator true) (.next _ _ (.creator true)
      (.next _ _ (.creator true) .start trivial rfl) trivial rfl) trivial rfl
  have h2 := creator_finishes n initWrites { Startup.start role with
    bound := true, size := n.bytes, creator := .initQueue initWrites } rfl
  unfold Startup.finish at h2
  simp only [init_all] at h2
  exact h1.trans h2

/-- An opener that comes after the creator. -/
theorem startup_safe_one_after_the_other :
    ∃ s, ReachWhere (Startup.step .default) Startup.InTime (.start .consumer) s ∧
      s.opener = .running ∧ s.Safe ∧
      ∀ a s', s.step .default a = some s' → ¬ s.InTime a → ¬ s'.Safe := by
  have hin : ∀ pc, ({ Startup.created .consumer .default with opener := pc } : Startup).InTime
      (.opener true) :=
    fun pc => ⟨fun _ => Nat.le_refl _, fun _ rest hr _ => (CreatorPc.initQueue.inj hr).symm⟩
  have h : ReachWhere (Startup.step .default) Startup.InTime (.start .consumer)
      { Startup.created .consumer .default with opener := .running } :=
    .next _ _ (.opener true) (.next _ _ (.opener true) (.next _ _ (.opener true)
      (.next _ _ (.opener true) (.next _ _ (.opener true) (.next _ _ (.opener true)
        (reach_created .consumer .default) (hin .shmOpen) rfl) (hin .mmap) rfl)
        (hin .readMagic) rfl) (hin .readVersion) rfl) (hin .readCapacity) rfl)
        (hin .readMaxPayloadSize) rfl
  exact ⟨_, h, rfl, startup_safe .default .consumer h⟩

/-! ## 4. The three ways to fail -/

/-- The opener maps the object before the creator's `ftruncate` and loads `magic`. -/
def openedEmpty : List StartupAction :=
  [.creator true, .opener true, .opener true, .opener true, .opener true]

/-- The creator has stored the meta words and the indices, and the opener finds the queue
    valid. -/
def openedEarly : List StartupAction :=
  List.replicate 9 (.creator true) ++ List.replicate 7 (.opener true)

/-- The opener runs, and the creator has the loop over the slots before it. -/
def Startup.early (n : QueueSize) : Startup :=
  { Startup.created .producer n with creator := .initQueue initSlots, opener := .running }

theorem reach_early : Reach (Startup.step .default) (.start .producer) (.early .default) :=
  reach_run (show run (Startup.step .default) (.start .producer) openedEarly = some _ from rfl)

/-- The calls of a running opener, while the creator stands still. -/
theorem reach_calls (n : QueueSize) {s : Startup} (hrun : s.opener = .running)
    (hsize : queueMemorySize ≤ s.size) {t : System}
    (h : ReachWhere System.step (fun _ a => s.role.allows a = true) s.system t) :
    Reach (Startup.step n) s { s with system := t } := by
  induction h with
  | start => exact .start
  | next t t' a _ hc hs ih =>
      refine .next _ _ (.call a) ih trivial ?_
      simp only [Startup.step, Startup.call, hrun, hc, and_self, if_true, if_pos hsize, hs,
        Option.map_some]

theorem init_slots_cleared (q : SharedQueueLayout) (i : Fin queueCapacity) :
    (initSlots.foldl InitWrite.apply q).slots i = .cleared := by
  rw [initSlots, init_slots]
  exact if_pos (List.mem_finRange i)

theorem readyMessage_eq_none {s : System} {i : Fin queueCapacity}
    (h : s.queue.slots i = .cleared) : s.readyMessage i = none := by
  unfold System.readyMessage
  rw [h]
  rfl

/-- Whatever is in the queue when the loop over the slots begins is gone when it is over. -/
theorem erased_by_init (n : QueueSize) {s : Startup} (hc : s.creator = .initQueue initSlots) :
    ∃ s', Reach (Startup.step n) s s' ∧ s'.creator = .initQueue [] ∧
      s'.system.history = s.system.history ∧ s'.system.readyMessage = fun _ => none := by
  refine ⟨s.finish initSlots, (creator_finishes n initSlots s hc).reach, finish_creator _ _,
    finish_history _ _, funext fun i => readyMessage_eq_none ?_⟩
  rw [finish_queue]
  exact init_slots_cleared _ i

/-- `producer_hw4` pushes its number. -/
def pushedNumber : List Action := .push 0 pushNumber :: List.replicate 10 (.produce 0)

/-- **A start can go wrong in three ways**: the second process reads an object of size 0; it takes
    a queue for valid that is still being initialised; and its message, pushed with result `true`,
    is erased by the rest of the initialisation. -/
theorem startup_unsafe :
    (∃ s, Reach (Startup.step .default) (.start .producer) s ∧ s.beyond = true) ∧
    (∃ s, Reach (Startup.step .default) (.start .producer) s ∧ s.opener = .running ∧
      s.creator ≠ .initQueue []) ∧
    (∃ s, Reach (Startup.step .default) (.start .producer) s ∧ s.creator = .initQueue [] ∧
      s.system.history.accepted = [⟨2, 4, [57, 48, 0, 0]⟩] ∧
      ↑(s.system.history.consumed.map (·.entry.message)) + bagOf s.system.readyMessage = 0) := by
  refine ⟨?_, ?_, ?_⟩
  · obtain ⟨s, hs, hp⟩ := reach_of_run (Startup.step .default) (fun _ _ => true)
      (.start .producer) openedEmpty (fun s => s.beyond) (by decide +kernel)
    exact ⟨s, hs.reach, hp⟩
  · refine ⟨_, reach_early, rfl, fun e => ?_⟩
    have hmem : InitWrite.state 0 ∈ initSlots :=
      List.mem_flatMap.mpr ⟨0, List.mem_finRange 0, List.mem_cons_self⟩
    rw [CreatorPc.initQueue.inj e] at hmem
    exact absurd hmem List.not_mem_nil
  · obtain ⟨t, ht, hp⟩ := reach_of_run System.step (fun _ a => Role.producer.allows a)
      (.idle .fresh) pushedNumber (fun t => decide (t.history.accepted =
        [⟨2, 4, [57, 48, 0, 0]⟩] ∧ t.history.consumed = [])) (by decide +kernel)
    obtain ⟨hacc, hcon⟩ := of_decide_eq_true hp
    have hr := reach_early.trans
      (reach_calls .default (s := .early .default) rfl (Nat.le_refl _) ht)
    obtain ⟨s, hs, hc, hh, hnone⟩ := erased_by_init .default
      (s := { Startup.early .default with system := t }) rfl
    refine ⟨s, hr.trans hs, hc, ?_, ?_⟩
    · rw [hh]
      exact hacc
    · have hcon' : s.system.history.consumed = [] := by rw [hh]; exact hcon
      rw [hnone, bagOf_none, hcon']
      rfl

end HseMultithreading.Hw4
