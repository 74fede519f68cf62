/-
  File:      HseMultithreading/Hw4/Calls.lean
  Subject:   `try_push_message` and `try_pop_message` as complete calls: the effect of one call
             that nobody interrupts (`hw4/ipc_queue.cpp`).

  Pointers are `Option`s (`none` is `nullptr`); behind a data pointer is a piece of memory, read
  byte by byte. The guards at the head of both functions turn the arguments into a job
  (`PushArgs.guard`, `PopArgs.guard`), and a job carries what the guards established: a push job
  fits into a payload.

  * `tryPushMessage` takes the ticket BEFORE it looks at the slot: a push that finds its slot
    occupied returns `false` with `write_index` already advanced.
  * `tryPopMessage` leaves everything as it is unless the slot at `read_index` is READY and its
    length fits (`Takes`); then it clears the slot and advances `read_index`, delivering the
    message only when its type is the expected one.
-/
import HseMultithreading.Hw4.Layout

namespace HseMultithreading.Hw4

/-! ## 1. Push -/

/-- The arguments of one `try_push_message` call. -/
structure PushArgs where
  nullQueue : Bool
  type : MessageType
  data : Option (ℕ → UInt8)
  length : UInt64

/-- What is left of the arguments behind the two guards of `try_push_message`. -/
structure PushJob where
  type : UInt32
  data : ℕ → UInt8
  length : ℕ
  fits : length ≤ maxPayloadSize

/-- The guards of `try_push_message`: no null pointer, at most `MAX_PAYLOAD_SIZE` bytes. -/
def PushArgs.guard (a : PushArgs) : Option PushJob :=
  if a.nullQueue then none
  else match a.data with
    | none => none
    | some data =>
      if h : a.length.toNat ≤ maxPayloadSize then some ⟨a.type.code, data, a.length.toNat, h⟩
      else none

/-- The header a push writes. -/
def PushJob.header (job : PushJob) : MessageHeader := ⟨job.type, UInt32.ofNat job.length⟩

/-- The message a push is asked to send. -/
def PushJob.message (job : PushJob) : Message :=
  ⟨job.type, UInt32.ofNat job.length, readBytes job.data job.length⟩

/-- The narrowing of the length to 32 bits loses nothing behind the guard. -/
theorem PushJob.length_toNat (job : PushJob) : (UInt32.ofNat job.length).toNat = job.length := by
  have h : job.length ≤ 256 := job.fits
  simp only [UInt32.toNat_ofNat']
  omega

/-- `std::memcpy` of `n` bytes onto the front of a payload. -/
def memcpy (dst : Payload) (src : ℕ → UInt8) (n : ℕ) : Payload :=
  fun j => if j.val < n then src j else dst j

/-- A slot with the header and the bytes of a job holds the job's message. -/
theorem message_of_job (job : PushJob) {slot : MessageSlot} (hh : slot.header = job.header)
    (hp : ∀ j : Fin maxPayloadSize, j.val < job.length → slot.payload j = job.data j) :
    slot.message = job.message := by
  unfold MessageSlot.message PushJob.message
  rw [hh]
  simp only [PushJob.header, job.length_toNat, Message.mk.injEq, true_and]
  exact take_payload job.fits hp

/-- `try_push_message`. -/
def tryPushMessage (q : SharedQueueLayout) (a : PushArgs) : SharedQueueLayout × Bool :=
  match a.guard with
  | none => (q, false)
  | some job =>
    let index := q.writeIndex
    let q := { q with writeIndex := index + 1 }
    let i := getSlot index
    if (q.slots i).state ≠ SlotState.empty.code then (q, false)
    else
      let payload := memcpy (q.slots i).payload job.data job.length
      (q.setSlot i ⟨SlotState.ready.code, job.header, payload⟩, true)

theorem tryPushMessage_none {q : SharedQueueLayout} {a : PushArgs} (h : a.guard = none) :
    tryPushMessage q a = (q, false) := by
  simp [tryPushMessage, h]

/-- **A refused push has taken its ticket.** -/
theorem tryPushMessage_occupied {q : SharedQueueLayout} {a : PushArgs} {job : PushJob}
    (h : a.guard = some job)
    (ho : (q.slots (getSlot q.writeIndex)).state ≠ SlotState.empty.code) :
    tryPushMessage q a = ({ q with writeIndex := q.writeIndex + 1 }, false) := by
  simp [tryPushMessage, h, ho]

/-- The slot an accepted push leaves behind. -/
def PushJob.fill (job : PushJob) (old : MessageSlot) : MessageSlot :=
  ⟨SlotState.ready.code, job.header, memcpy old.payload job.data job.length⟩

theorem PushJob.message_fill (job : PushJob) (old : MessageSlot) :
    (job.fill old).message = job.message :=
  message_of_job job rfl fun _ hj => if_pos hj

theorem tryPushMessage_accepted {q : SharedQueueLayout} {a : PushArgs} {job : PushJob}
    (h : a.guard = some job)
    (he : (q.slots (getSlot q.writeIndex)).state = SlotState.empty.code) :
    tryPushMessage q a =
      (({ q with writeIndex := q.writeIndex + 1 } : SharedQueueLayout).setSlot
        (getSlot q.writeIndex) (job.fill (q.slots (getSlot q.writeIndex))), true) := by
  simp [tryPushMessage, h, he, PushJob.fill]

/-! ## 2. Pop -/

/-- The arguments of one `try_pop_message` call; behind the two out pointers is the caller's
    memory as it is before the call. -/
structure PopArgs where
  nullQueue : Bool
  expectedType : MessageType
  outBuffer : Option (ℕ → UInt8)
  bufferSize : UInt64
  outHeader : Option MessageHeader

/-- What is left of the arguments behind the guard of `try_pop_message`. -/
structure PopJob where
  expected : UInt32
  size : ℕ
  buffer : ℕ → UInt8
  header : MessageHeader

/-- The guard of `try_pop_message`: no null pointer. -/
def PopArgs.guard (a : PopArgs) : Option PopJob :=
  if a.nullQueue then none
  else match a.outBuffer, a.outHeader with
    | some buffer, some header => some ⟨a.expectedType.code, a.bufferSize.toNat, buffer, header⟩
    | _, _ => none

/-- What one `try_pop_message` call leaves: the queue, the caller's memory and the result. -/
structure PopResult where
  queue : SharedQueueLayout
  outBuffer : Option (ℕ → UInt8)
  outHeader : Option MessageHeader
  popped : Bool

/-- `std::memcpy` of `n` payload bytes into the caller's buffer. -/
def copyOut (dst : ℕ → UInt8) (src : Payload) (n : ℕ) : ℕ → UInt8 :=
  fun j => if h : j < n ∧ j < maxPayloadSize then src ⟨j, h.2⟩ else dst j

theorem copyOut_zero (dst : ℕ → UInt8) (src : Payload) : copyOut dst src 0 = dst := by
  funext j
  exact dif_neg fun h => absurd h.1 (Nat.not_lt_zero j)

/-- `try_pop_message`. -/
def tryPopMessage (q : SharedQueueLayout) (a : PopArgs) : PopResult :=
  match a.guard with
  | none => ⟨q, a.outBuffer, a.outHeader, false⟩
  | some job =>
    let index := q.readIndex
    let i := getSlot index
    let slot := q.slots i
    if slot.state ≠ SlotState.ready.code then ⟨q, a.outBuffer, a.outHeader, false⟩
    else
      let header := slot.header
      if maxPayloadSize < header.length.toNat then ⟨q, a.outBuffer, a.outHeader, false⟩
      else if job.size < header.length.toNat then ⟨q, a.outBuffer, a.outHeader, false⟩
      else
        let q := { q.setSlot i .cleared with readIndex := index + 1 }
        if header.type = job.expected then
          ⟨q, some (copyOut job.buffer slot.payload header.length.toNat), some header, true⟩
        else ⟨q, a.outBuffer, a.outHeader, false⟩

/-- A pop takes the slot at `read_index`: it is READY and its length passes both checks. -/
def Takes (q : SharedQueueLayout) (job : PopJob) : Prop :=
  (q.slots (getSlot q.readIndex)).state = SlotState.ready.code ∧
  (q.slots (getSlot q.readIndex)).header.length.toNat ≤ maxPayloadSize ∧
  (q.slots (getSlot q.readIndex)).header.length.toNat ≤ job.size

instance (q : SharedQueueLayout) (job : PopJob) : Decidable (Takes q job) :=
  inferInstanceAs (Decidable (_ ∧ _ ∧ _))

/-- The queue after a pop that took its slot. -/
def SharedQueueLayout.release (q : SharedQueueLayout) : SharedQueueLayout :=
  { q.setSlot (getSlot q.readIndex) .cleared with readIndex := q.readIndex + 1 }

theorem release_readIndex_ne (q : SharedQueueLayout) : q.release.readIndex ≠ q.readIndex := by
  intro e
  have h := congrArg UInt64.toNat e
  have hlt := q.readIndex.toNat_lt
  simp only [SharedQueueLayout.release, UInt64.toNat_add, UInt64.toNat_one] at h
  omega

theorem tryPopMessage_none {q : SharedQueueLayout} {a : PopArgs} (h : a.guard = none) :
    tryPopMessage q a = ⟨q, a.outBuffer, a.outHeader, false⟩ := by
  simp [tryPopMessage, h]

/-- **A pop that does not take its slot changes nothing.** -/
theorem tryPopMessage_keeps {q : SharedQueueLayout} {a : PopArgs} {job : PopJob}
    (h : a.guard = some job) (ht : ¬ Takes q job) :
    tryPopMessage q a = ⟨q, a.outBuffer, a.outHeader, false⟩ := by
  simp only [tryPopMessage, h]
  split
  · rfl
  · split
    · rfl
    · split
      · rfl
      · rename_i h1 h2 h3
        exact absurd ⟨by simpa using h1, by omega, by omega⟩ ht

/-- A pop that takes its slot releases it, and delivers the message when the type matches. -/
theorem tryPopMessage_takes {q : SharedQueueLayout} {a : PopArgs} {job : PopJob}
    (h : a.guard = some job) (ht : Takes q job) :
    tryPopMessage q a =
      if (q.slots (getSlot q.readIndex)).header.type = job.expected then
        ⟨q.release, some (copyOut job.buffer (q.slots (getSlot q.readIndex)).payload
          (q.slots (getSlot q.readIndex)).header.length.toNat),
          some (q.slots (getSlot q.readIndex)).header, true⟩
      else ⟨q.release, a.outBuffer, a.outHeader, false⟩ := by
  obtain ⟨hr, hm, hs⟩ := ht
  simp only [tryPopMessage, h, hr, ne_eq, not_true_eq_false, if_false, Nat.not_lt.mpr hm,
    Nat.not_lt.mpr hs, SharedQueueLayout.release]

/-! ## 3. The calls of the two programs -/

/-- The bytes of `int number = 12345`, low byte first. -/
def numberBytes : List UInt8 := [57, 48, 0, 0]

/-- The bytes of `"hello from producer"` with the final zero. -/
def textBytes : List UInt8 :=
  [104, 101, 108, 108, 111, 32, 102, 114, 111, 109, 32, 112, 114, 111, 100, 117, 99, 101, 114, 0]

/-- The first push of `producer_hw4`. -/
def pushNumber : PushArgs := ⟨false, .number, some fun j => numberBytes.getD j 0, 4⟩

/-- The second push of `producer_hw4`. -/
def pushText : PushArgs := ⟨false, .text, some fun j => textBytes.getD j 0, 20⟩

/-- The pop of `consumer_hw4`: TEXT, into a buffer of `MAX_PAYLOAD_SIZE` bytes. -/
def popText : PopArgs := ⟨false, .text, some fun _ => 0, 256, some ⟨0, 0⟩⟩

/-- A push of one TEXT byte. -/
def oneByte : PushArgs := ⟨false, .text, some fun _ => 65, 1⟩

end HseMultithreading.Hw4
