/-
  File:      HseMultithreading/Hw4/Layout.lean
  Subject:   The memory of the hw4 message queue (`hw4/ipc_queue.h`) and the functions of
             `hw4/ipc_queue.cpp` that set it up or look at it: `init_queue`, `is_queue_valid`,
             `get_slot`.

  The words of the layout keep their widths: the slot state and the header are 32-bit words, the
  two indices 64-bit words (`std::size_t`), a payload 256 bytes. Nothing restricts a state word to
  the three enumerators: what a program finds in shared memory is any word.

  A `Message` is what a push is asked to send and what a slot holds: the type word, the length
  word and the first `length` bytes.
-/
import Mathlib.Logic.Function.Basic
import Mathlib.Data.List.OfFn
import Mathlib.Data.List.Range
import Mathlib.Tactic.Common

namespace HseMultithreading.Hw4

/-- `PROTOCOL_MAGIC`. -/
def protocolMagic : UInt32 := 0x48573431

/-- `PROTOCOL_VERSION`. -/
def protocolVersion : UInt32 := 1

/-- `QUEUE_CAPACITY`. -/
abbrev queueCapacity : ℕ := 16

/-- `MAX_PAYLOAD_SIZE`. -/
abbrev maxPayloadSize : ℕ := 256

/-- `enum class MessageType : std::uint32_t`. An enumeration with a fixed underlying type has
    every value of that type; three of them are named. -/
structure MessageType where
  code : UInt32
  deriving DecidableEq, Repr

namespace MessageType

def unknown : MessageType := ⟨0⟩

def text : MessageType := ⟨1⟩

def number : MessageType := ⟨2⟩

end MessageType

/-- `enum class SlotState : std::uint32_t`: the three values the queue itself stores. -/
inductive SlotState where
  | empty | writing | ready
  deriving DecidableEq, Repr

/-- The word of a slot state. -/
def SlotState.code : SlotState → UInt32
  | .empty => 0
  | .writing => 1
  | .ready => 2

@[simp] theorem SlotState.code_inj {a b : SlotState} : a.code = b.code ↔ a = b := by
  cases a <;> cases b <;> decide

structure MessageHeader where
  type : UInt32
  length : UInt32
  deriving DecidableEq, Repr

structure QueueMeta where
  magic : UInt32
  version : UInt32
  capacity : UInt32
  maxPayloadSize : UInt32
  deriving DecidableEq, Repr

/-- `char payload[MAX_PAYLOAD_SIZE]`. -/
abbrev Payload := Fin maxPayloadSize → UInt8

structure MessageSlot where
  state : UInt32
  header : MessageHeader
  payload : Payload

structure SharedQueueLayout where
  queueMeta : QueueMeta
  writeIndex : UInt64
  readIndex : UInt64
  slots : Fin queueCapacity → MessageSlot

/-! ## 1. Slots -/

/-- `get_slot`: the number of the slot an index stands for. -/
def getSlot (index : UInt64) : Fin queueCapacity :=
  ⟨index.toNat % queueCapacity, Nat.mod_lt _ (by decide)⟩

theorem getSlot_val (index : UInt64) : (getSlot index).val = index.toNat % 16 := rfl

theorem slot_lt (i : Fin queueCapacity) : i.val < 16 := i.isLt

/-- The queue with slot `i` replaced. -/
def SharedQueueLayout.setSlot (q : SharedQueueLayout) (i : Fin queueCapacity)
    (slot : MessageSlot) : SharedQueueLayout :=
  { q with slots := Function.update q.slots i slot }

section SetSlot

variable (q : SharedQueueLayout) (i : Fin queueCapacity) (slot : MessageSlot)

@[simp] theorem setSlot_writeIndex : (q.setSlot i slot).writeIndex = q.writeIndex := rfl

@[simp] theorem setSlot_readIndex : (q.setSlot i slot).readIndex = q.readIndex := rfl

@[simp] theorem setSlot_slots_self : (q.setSlot i slot).slots i = slot := by
  unfold SharedQueueLayout.setSlot
  exact Function.update_self ..

theorem setSlot_slots_of_ne {j : Fin queueCapacity} (h : j ≠ i) :
    (q.setSlot i slot).slots j = q.slots j := by
  unfold SharedQueueLayout.setSlot
  exact Function.update_of_ne h ..

theorem setSlot_setSlot (slot' : MessageSlot) :
    (q.setSlot i slot).setSlot i slot' = q.setSlot i slot' := by
  unfold SharedQueueLayout.setSlot
  rw [Function.update_idem]

end SetSlot

/-! ## 2. Messages -/

/-- A message: type word, length word and payload bytes. -/
structure Message where
  type : UInt32
  length : UInt32
  bytes : List UInt8
  deriving DecidableEq, Repr

/-- The first `n` bytes of a piece of memory. -/
def readBytes (mem : ℕ → UInt8) (n : ℕ) : List UInt8 := (List.range n).map mem

/-- The message a slot holds. -/
def MessageSlot.message (slot : MessageSlot) : Message :=
  ⟨slot.header.type, slot.header.length, (List.ofFn slot.payload).take slot.header.length.toNat⟩

/-- A payload that agrees with a piece of memory on its first `n` bytes reads as that memory. -/
theorem take_payload {m : ℕ} {payload : Fin m → UInt8} {mem : ℕ → UInt8} {n : ℕ} (hn : n ≤ m)
    (h : ∀ j : Fin m, j.val < n → payload j = mem j) :
    (List.ofFn payload).take n = readBytes mem n := by
  apply List.ext_getElem
  · simpa [readBytes] using hn
  · intro j h1 h2
    have hj : j < n := by simpa [readBytes] using h2
    simp only [readBytes, List.getElem_take, List.getElem_ofFn, List.getElem_map,
      List.getElem_range]
    exact h ⟨j, by omega⟩ hj

/-- Two pieces of memory that agree on their first `n` bytes read alike. -/
theorem readBytes_congr {mem mem' : ℕ → UInt8} {n : ℕ} (h : ∀ j < n, mem j = mem' j) :
    readBytes mem n = readBytes mem' n :=
  List.map_congr_left fun j hj => h j (List.mem_range.mp hj)

/-- What `init_queue` and a finished pop leave in a slot. -/
def MessageSlot.cleared : MessageSlot :=
  ⟨SlotState.empty.code, ⟨MessageType.unknown.code, 0⟩, fun _ => 0⟩

/-! ## 3. Setting up and checking -/

/-- The meta words of this protocol. -/
def QueueMeta.current : QueueMeta :=
  ⟨protocolMagic, protocolVersion, UInt32.ofNat queueCapacity, UInt32.ofNat Hw4.maxPayloadSize⟩

/-- The queue as `init_queue` leaves it. -/
def SharedQueueLayout.fresh : SharedQueueLayout := ⟨.current, 0, 0, fun _ => .cleared⟩

/-- `init_queue`: every field is overwritten, so nothing of the old memory is left. -/
def initQueue (_ : SharedQueueLayout) : SharedQueueLayout := .fresh

/-- `is_queue_valid`. -/
def isQueueValid (q : SharedQueueLayout) : Bool :=
  if q.queueMeta.magic ≠ protocolMagic then false
  else if q.queueMeta.version ≠ protocolVersion then false
  else if q.queueMeta.capacity ≠ UInt32.ofNat queueCapacity then false
  else if q.queueMeta.maxPayloadSize ≠ UInt32.ofNat maxPayloadSize then false
  else true

/-- The check reads the four meta words and nothing else. -/
theorem isQueueValid_iff (q : SharedQueueLayout) :
    isQueueValid q = true ↔ q.queueMeta = .current := by
  obtain ⟨⟨magic, version, capacity, maxPayload⟩, w, r, slots⟩ := q
  simp only [isQueueValid, QueueMeta.current, QueueMeta.mk.injEq]
  split <;> [simp_all; skip]
  split <;> [simp_all; skip]
  split <;> [simp_all; skip]
  split <;> simp_all

theorem isQueueValid_initQueue (q : SharedQueueLayout) : isQueueValid (initQueue q) = true :=
  (isQueueValid_iff _).mpr rfl

end HseMultithreading.Hw4
