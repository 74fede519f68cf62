/-
  File:      HseMultithreading/Hw4/Consumer.lean
  Subject:   THE LOOP OF `consumer_hw4` (`hw4/consumer_hw4.cpp`): it calls `try_pop_message` until a
             call neither returns `true` nor advances `read_index`.

  The loop tells a skipped message from an empty queue by `read_index` alone, before and after the
  call. It is kept general in the type it asks for and in the size of its buffer (`Wanted`);
  `consumer_hw4` asks for TEXT and has `MAX_PAYLOAD_SIZE` bytes.

  * `Consumer`, `Consumer.step` -- the queue, the variables of `main` and one iteration a step; an
    observer writes down every call.
  * `record_touches` -- the observer writes down what the call touches and how much it copies.
  * `iterate_cases` -- the four ways an iteration can go.
  * **`consumer_survives`** -- whatever the memory holds, the loop ends after at most one call more
    than there are READY slots, stays inside slots and buffer, and changes only what it consumes.
  * **`consumer_reports`** -- on a queue as a session leaves it, the counters and the payloads are
    those of the messages queued.
  * **`drain_delivers_iff`** -- for another type or size: `try_pop_message` checks the length before
    the type, so a long message of an unwanted type stops the loop like a wanted one.
  * `drain_blocked` -- a NUMBER of four bytes before a TEXT of one, and a buffer of one byte.
-/
import Mathlib.Data.Fintype.Basic
import Mathlib.Data.Finset.Card
import HseMultithreading.Lib.CString
import HseMultithreading.Hw4.Session

namespace HseMultithreading.Hw4

open StepSystem

/-! ## 1. The loop -/

/-- The type a loop asks for and the size of its buffer. -/
structure Wanted where
  type : MessageType
  size : UInt64

/-- `hw4::MessageType::TEXT`, `sizeof(buffer)`. -/
def Wanted.consumer : Wanted := ⟨.text, UInt64.ofNat maxPayloadSize⟩

/-- The arguments of the call in the loop. -/
def Wanted.args (w : Wanted) (buffer : ℕ → UInt8) (header : MessageHeader) : PopArgs :=
  ⟨false, w.type, some buffer, w.size, some header⟩

/-- What is left of them behind the guard of `try_pop_message`. -/
def Wanted.job (w : Wanted) (buffer : ℕ → UInt8) (header : MessageHeader) : PopJob :=
  ⟨w.type.code, w.size.toNat, buffer, header⟩

/-- A line the loop prints. The text of a message is the buffer as a C string: `none` when no
    terminator stands in it and the print reads on behind it. -/
inductive Output where
  | received (text : Option (List UInt8))
  | skipped
  deriving DecidableEq

/-- A call of `try_pop_message` as an observer sees it: the slot it looks at, the number of bytes it
    copies into the buffer, whether it advances `read_index`, the message in the slot, and the
    message in the caller's memory when it returns `true`. -/
structure PopRecord where
  slot : ℕ
  copied : ℕ
  advanced : Bool
  message : Message
  delivered : Option Message

/-- The queue and the variables of `main`, with the calls made and the lines printed so far. The
    loop is `running` until its `break`. -/
structure Consumer where
  queue : SharedQueueLayout
  buffer : ℕ → UInt8
  header : MessageHeader
  receivedTextCount : ℕ
  skippedCount : ℕ
  output : List Output
  running : Bool
  calls : List PopRecord

/-- Before the loop: `buffer` and `header` are zero. -/
def Consumer.start (q : SharedQueueLayout) : Consumer :=
  ⟨q, fun _ => 0, ⟨0, 0⟩, 0, 0, [], true, []⟩

/-- What a pop has put into the caller's memory. -/
def PopResult.delivered (r : PopResult) : Option Message :=
  match r.popped, r.outHeader, r.outBuffer with
  | true, some header, some buffer =>
    some ⟨header.type, header.length, readBytes buffer header.length.toNat⟩
  | _, _, _ => none

/-- The record of the call that took queue `q` to the result `r`. -/
def PopResult.record (q : SharedQueueLayout) (r : PopResult) : PopRecord where
  slot := (q.readIndex % UInt64.ofNat queueCapacity).toNat
  copied := if r.popped then (q.slots (getSlot q.readIndex)).header.length.toNat else 0
  advanced := r.queue.readIndex ≠ q.readIndex
  message := (q.slots (getSlot q.readIndex)).message
  delivered := r.delivered

/-- The rest of an iteration, behind the call. -/
def Consumer.account (w : Wanted) (s : Consumer) (r : PopResult) : Consumer :=
  let before := s.queue.readIndex
  let after := r.queue.readIndex
  let s := { s with
    queue := r.queue
    buffer := r.outBuffer.getD s.buffer
    header := r.outHeader.getD s.header
    calls := s.calls ++ [r.record s.queue] }
  if r.popped then
    { s with
      receivedTextCount := s.receivedTextCount + 1
      output := s.output ++ [.received (CString.scan 0 (readBytes s.buffer w.size.toNat))] }
  else if before < after then
    { s with skippedCount := s.skippedCount + 1, output := s.output ++ [.skipped] }
  else { s with running := false }

/-- **One iteration of the loop.** -/
def Consumer.iterate (w : Wanted) (s : Consumer) : Consumer :=
  s.account w (tryPopMessage s.queue (w.args s.buffer s.header))

/-- The loop without anybody else at the queue. -/
def Consumer.step (w : Wanted) (s : Consumer) (_ : Unit) : Option Consumer :=
  if s.running then some (s.iterate w) else none

/-- The messages the caller has received. -/
def Consumer.delivered (s : Consumer) : List Message := s.calls.filterMap (·.delivered)

/-- The messages that were taken out of their slots and not delivered. -/
def Consumer.discarded (s : Consumer) : List Message :=
  (s.calls.filter fun c => c.advanced && c.delivered.isNone).map (·.message)

/-! ## 2. The ways an iteration can go -/

section Iteration

variable {w : Wanted} {s s' : Consumer}

/-- The slot the next call looks at. -/
def Consumer.slot (s : Consumer) : MessageSlot := s.queue.slots (getSlot s.queue.readIndex)

/-- The record of a call that changes nothing. -/
def Consumer.kept (s : Consumer) : PopRecord :=
  ⟨(getSlot s.queue.readIndex).val, 0, false, s.slot.message, none⟩

/-- The record of a call that discards the message in its slot. -/
def Consumer.dropped (s : Consumer) : PopRecord :=
  ⟨(getSlot s.queue.readIndex).val, 0, true, s.slot.message, none⟩

/-- The record of a call that delivers the message in its slot. -/
def Consumer.taken (s : Consumer) : PopRecord :=
  ⟨(getSlot s.queue.readIndex).val, s.slot.header.length.toNat, true, s.slot.message,
    some s.slot.message⟩

/-- The buffer after the message in the slot was copied into it. -/
def Consumer.filled (s : Consumer) : ℕ → UInt8 :=
  copyOut s.buffer s.slot.payload s.slot.header.length.toNat

theorem readIndex_mod (index : UInt64) :
    (index % UInt64.ofNat queueCapacity).toNat = (getSlot index).val := by
  rw [UInt64.toNat_mod]
  rfl

/-- What a pop reads is in the slot at `read_index`. -/
theorem tryPopMessage_slot {q q' : SharedQueueLayout} (a : PopArgs)
    (hindex : q'.readIndex = q.readIndex)
    (hslot : q'.slots (getSlot q.readIndex) = q.slots (getSlot q.readIndex)) :
    (tryPopMessage q' a).popped = (tryPopMessage q a).popped ∧
      (tryPopMessage q' a).outBuffer = (tryPopMessage q a).outBuffer ∧
      (tryPopMessage q' a).outHeader = (tryPopMessage q a).outHeader := by
  cases hg : a.guard with
  | none =>
      rw [tryPopMessage_none hg, tryPopMessage_none hg]
      exact ⟨rfl, rfl, rfl⟩
  | some job =>
      have hiff : Takes q' job ↔ Takes q job := by simp only [Takes, hindex, hslot]
      by_cases ht : Takes q job
      · rw [tryPopMessage_takes hg ht, tryPopMessage_takes hg (hiff.mpr ht), hindex, hslot]
        split <;> exact ⟨rfl, rfl, rfl⟩
      · rw [tryPopMessage_keeps hg ht, tryPopMessage_keeps hg fun h => ht (hiff.mp h)]
        exact ⟨rfl, rfl, rfl⟩

/-- **The record names what the call touches**: every slot but `slot` is left alone and has no
    influence on what is handed over, and of the payload in it the first `copied` bytes, no more and
    no fewer, are put into the buffer. -/
theorem record_touches (w : Wanted) (q : SharedQueueLayout) (buffer : ℕ → UInt8)
    (header : MessageHeader) :
    let r := tryPopMessage q (w.args buffer header)
    (∀ i, i.val ≠ (r.record q).slot → r.queue.slots i = q.slots i) ∧
      (∀ q', q'.readIndex = q.readIndex →
        (∀ i, i.val = (r.record q).slot → q'.slots i = q.slots i) →
        (tryPopMessage q' (w.args buffer header)).popped = r.popped ∧
          (tryPopMessage q' (w.args buffer header)).outBuffer = r.outBuffer ∧
          (tryPopMessage q' (w.args buffer header)).outHeader = r.outHeader) ∧
      r.outBuffer = some (copyOut buffer (q.slots (getSlot q.readIndex)).payload
        (r.record q).copied) := by
  intro r
  have hg : (w.args buffer header).guard = some (w.job buffer header) := rfl
  have hslot : (r.record q).slot = (getSlot q.readIndex).val := readIndex_mod _
  rw [hslot]
  refine ⟨fun i hi => ?_, fun q' hindex hsame => tryPopMessage_slot _ hindex (hsame _ rfl), ?_⟩
  all_goals by_cases ht : Takes q (w.job buffer header)
  · have hne : i ≠ getSlot q.readIndex := fun e => hi (congrArg Fin.val e)
    have hq : r.queue = q.release := by
      rw [show r = _ from tryPopMessage_takes hg ht]
      split <;> rfl
    rw [hq]
    exact setSlot_slots_of_ne _ _ _ hne
  · rw [show r = _ from tryPopMessage_keeps hg ht]
  · rw [show r = _ from tryPopMessage_takes hg ht]
    split
    · rfl
    · exact congrArg some (copyOut_zero _ _).symm
  · rw [show r = _ from tryPopMessage_keeps hg ht]
    exact congrArg some (copyOut_zero _ _).symm

/-- **The four ways an iteration can go**: the slot is not taken and the loop ends; its message is
    received; it is skipped; it is discarded with `read_index` at its last value, and the loop ends
    all the same. -/
theorem iterate_cases (w : Wanted) (s : Consumer) :
    (¬ Takes s.queue (w.job s.buffer s.header) ∧
      s.iterate w = { s with running := false, calls := s.calls ++ [s.kept] }) ∨
    (Takes s.queue (w.job s.buffer s.header) ∧ s.slot.header.type = w.type.code ∧
      s.iterate w = { s with
        queue := s.queue.release
        buffer := s.filled
        header := s.slot.header
        receivedTextCount := s.receivedTextCount + 1
        output := s.output ++ [.received (CString.scan 0 (readBytes s.filled w.size.toNat))]
        calls := s.calls ++ [s.taken] }) ∨
    (Takes s.queue (w.job s.buffer s.header) ∧ s.slot.header.type ≠ w.type.code ∧
      s.queue.readIndex < s.queue.readIndex + 1 ∧
      s.iterate w = { s with
        queue := s.queue.release
        skippedCount := s.skippedCount + 1
        output := s.output ++ [.skipped]
        calls := s.calls ++ [s.dropped] }) ∨
    (Takes s.queue (w.job s.buffer s.header) ∧ s.slot.header.type ≠ w.type.code ∧
      ¬ s.queue.readIndex < s.queue.readIndex + 1 ∧
      s.iterate w = { s with
        queue := s.queue.release, running := false, calls := s.calls ++ [s.dropped] }) := by
  have hg : (w.args s.buffer s.header).guard = some (w.job s.buffer s.header) := rfl
  have hne := release_readIndex_ne s.queue
  unfold Consumer.iterate
  by_cases ht : Takes s.queue (w.job s.buffer s.header)
  · have hr := tryPopMessage_takes hg ht
    right
    by_cases hty : s.slot.header.type = w.type.code
    · refine .inl ⟨ht, hty, ?_⟩
      have hr' : tryPopMessage s.queue (w.args s.buffer s.header) =
          ⟨s.queue.release, some s.filled, some s.slot.header, true⟩ := hr.trans (if_pos hty)
      have hout : readBytes s.filled s.slot.header.length.toNat = s.slot.message.bytes :=
        copyOut_message s.buffer ht.2.1
      rw [hr']
      simp only [Consumer.account, PopResult.record, PopResult.delivered, readIndex_mod, hne, ne_eq,
        not_false_eq_true, decide_true, if_true, hout]
      rfl
    · right
      rw [hr.trans (if_neg hty)]
      by_cases hlt : s.queue.readIndex < s.queue.readIndex + 1
      · refine .inl ⟨ht, hty, hlt, ?_⟩
        have hlt' : s.queue.readIndex < s.queue.release.readIndex := hlt
        simp only [Consumer.account, PopResult.record, PopResult.delivered, readIndex_mod, hne,
          ne_eq, not_false_eq_true, decide_true, Bool.false_eq_true, if_false, if_pos hlt']
        rfl
      · refine .inr ⟨ht, hty, hlt, ?_⟩
        have hlt' : ¬ s.queue.readIndex < s.queue.release.readIndex := hlt
        simp only [Consumer.account, PopResult.record, PopResult.delivered, readIndex_mod, hne,
          ne_eq, not_false_eq_true, decide_true, Bool.false_eq_true, if_false, if_neg hlt']
        rfl
  · refine .inl ⟨ht, ?_⟩
    rw [tryPopMessage_keeps hg ht]
    simp only [Consumer.account, PopResult.record, PopResult.delivered, readIndex_mod, ne_eq,
      not_true_eq_false, decide_false, Bool.false_eq_true, if_false, UInt64.lt_irrefl]
    rfl

end Iteration

/-! ## 3. Whatever the memory holds -/

/-- The number of READY slots. -/
def SharedQueueLayout.readyCount (q : SharedQueueLayout) : ℕ :=
  (Finset.univ.filter fun i => (q.slots i).state = SlotState.ready.code).card

theorem release_slots_of_ne (q : SharedQueueLayout) {i : Fin queueCapacity}
    (h : i ≠ getSlot q.readIndex) : q.release.slots i = q.slots i :=
  setSlot_slots_of_ne _ _ _ h

theorem readyCount_release {q : SharedQueueLayout}
    (hr : (q.slots (getSlot q.readIndex)).state = SlotState.ready.code) :
    q.release.readyCount + 1 = q.readyCount := by
  have herase : (Finset.univ.filter fun i => (q.release.slots i).state = SlotState.ready.code) =
      (Finset.univ.filter fun i => (q.slots i).state = SlotState.ready.code).erase
        (getSlot q.readIndex) := by
    ext i
    simp only [Finset.mem_filter, Finset.mem_univ, true_and, Finset.mem_erase]
    by_cases e : i = getSlot q.readIndex
    · have hempty : (q.release.slots (getSlot q.readIndex)).state = SlotState.empty.code := by
        show ((q.setSlot _ .cleared).slots (getSlot q.readIndex)).state = _
        rw [setSlot_slots_self]
        rfl
      rw [e, hempty]
      simp
    · rw [release_slots_of_ne q e]
      exact (and_iff_right e).symm
  unfold SharedQueueLayout.readyCount
  rw [herase]
  exact Finset.card_erase_add_one (Finset.mem_filter.mpr ⟨Finset.mem_univ _, hr⟩)

/-- The calls the loop may still make. -/
def Consumer.left (s : Consumer) : ℕ := if s.running then s.queue.readyCount + 1 else 0

/-- **What the loop has done to a queue `q` that held anything at all**: it has made few calls, each
    one inside a slot and inside the buffer, and has changed no slot but those it took. -/
structure Survives (w : Wanted) (q : SharedQueueLayout) (s : Consumer) : Prop where
  calls : s.calls.length + s.left ≤ q.readyCount + 1
  inside : ∀ c ∈ s.calls, c.slot < queueCapacity ∧ c.copied ≤ min maxPayloadSize w.size.toNat
  changed : ∀ i, s.queue.slots i ≠ q.slots i → ∃ c ∈ s.calls, c.advanced = true ∧ c.slot = i.val
  buffer : ∀ j, w.size.toNat ≤ j → s.buffer j = 0

section Survival

variable {w : Wanted} {q : SharedQueueLayout} {s s' : Consumer}

theorem survives_start (w : Wanted) (q : SharedQueueLayout) : Survives w q (.start q) where
  calls := Nat.le_of_eq (Nat.zero_add _)
  inside := nofun
  changed _ h := absurd rfl h
  buffer _ _ := rfl

/-- One more call. -/
theorem Survives.record (h : Survives w q s) {c : PopRecord} (hcalls : s'.calls = s.calls ++ [c])
    (hleft : s'.left < s.left) (hslot : c.slot = (getSlot s.queue.readIndex).val)
    (hcopied : c.copied ≤ min maxPayloadSize w.size.toNat)
    (hqueue : s'.queue = s.queue ∨ s'.queue = s.queue.release ∧ c.advanced = true)
    (hbuffer : ∀ j, w.size.toNat ≤ j → s'.buffer j = s.buffer j) : Survives w q s' where
  calls := by
    have hle := h.calls
    rw [hcalls, List.length_append, List.length_singleton]
    omega
  inside c' hc' := by
    rw [hcalls, List.mem_append, List.mem_singleton] at hc'
    rcases hc' with hc' | rfl
    · exact h.inside c' hc'
    · exact ⟨hslot ▸ slot_lt _, hcopied⟩
  changed i hi := by
    rw [hcalls]
    by_cases hold : s.queue.slots i = q.slots i
    · rcases hqueue with hq | ⟨hq, hadv⟩
      · rw [hq] at hi
        exact absurd hold hi
      · -- This call is the first to change the slot, so it is the slot the call took.
        refine ⟨c, List.mem_append_right _ List.mem_cons_self, hadv, hslot.trans ?_⟩
        refine congrArg Fin.val (Classical.not_not.mp fun e => hi ?_)
        rw [hq, release_slots_of_ne _ fun e' => e e'.symm]
        exact hold
    · obtain ⟨c', hc', hfound⟩ := h.changed i hold
      exact ⟨c', List.mem_append_left _ hc', hfound⟩
  buffer j hj := (hbuffer j hj).trans (h.buffer j hj)

/-- A loop that has ended makes no more calls. -/
theorem left_of_stopped (hrun : s.running = true) (hstop : s'.running = false) :
    s'.left < s.left := by
  rw [Consumer.left, Consumer.left, hrun, hstop]
  exact Nat.succ_pos _

/-- A READY slot less is a call less. -/
theorem left_of_released (hrun : s.running = true)
    (hr : s.slot.state = SlotState.ready.code) (hq : s'.queue = s.queue.release) :
    s'.left < s.left := by
  have hcount := readyCount_release hr
  rw [Consumer.left, Consumer.left, hrun, hq, if_pos rfl]
  split <;> omega

/-- The copy writes no byte behind the length of the message. -/
theorem filled_of_le {j : ℕ} (h : s.slot.header.length.toNat ≤ j) : s.filled j = s.buffer j :=
  dif_neg fun hj => absurd hj.1 (Nat.not_lt.mpr h)

/-- **Every iteration keeps it**, and uses up a call. -/
theorem Survives.iterate (h : Survives w q s) (hrun : s.running = true) :
    Survives w q (s.iterate w) ∧ (s.iterate w).left < s.left := by
  have hnone : 0 ≤ min maxPayloadSize w.size.toNat := Nat.zero_le _
  rcases iterate_cases w s with ⟨-, e⟩ | ⟨ht, -, e⟩ | ⟨ht, -, -, e⟩ | ⟨ht, -, -, e⟩
  · have hless : (s.iterate w).left < s.left := left_of_stopped hrun (by rw [e])
    refine ⟨h.record (c := s.kept) ?_ hless rfl hnone (.inl ?_) fun _ _ => ?_, hless⟩ <;> rw [e]
  · have hless : (s.iterate w).left < s.left := left_of_released hrun ht.1 (by rw [e])
    refine ⟨h.record (c := s.taken) ?_ hless rfl ?_ (.inr ⟨?_, rfl⟩) fun j hj => ?_, hless⟩
    · rw [e]
    · exact Nat.le_min.mpr ⟨ht.2.1, ht.2.2⟩
    · rw [e]
    · rw [e]
      exact filled_of_le (Nat.le_trans ht.2.2 hj)
  · have hless : (s.iterate w).left < s.left := left_of_released hrun ht.1 (by rw [e])
    refine ⟨h.record (c := s.dropped) ?_ hless rfl hnone (.inr ⟨?_, rfl⟩) fun _ _ => ?_, hless⟩ <;>
      rw [e]
  · have hless : (s.iterate w).left < s.left := left_of_stopped hrun (by rw [e])
    refine ⟨h.record (c := s.dropped) ?_ hless rfl hnone (.inr ⟨?_, rfl⟩) fun _ _ => ?_, hless⟩ <;>
      rw [e]

theorem step_eq {a : Unit} (hs : s.step w a = some s') : s.running = true ∧ s' = s.iterate w := by
  unfold Consumer.step at hs
  split at hs
  next hrun => exact ⟨hrun, (Option.some.inj hs).symm⟩
  next => cases hs

theorem survives_step (h : Survives w q s) {a : Unit} (hs : s.step w a = some s') :
    Survives w q s' ∧ s'.left < s.left := by
  obtain ⟨hrun, rfl⟩ := step_eq hs
  exact h.iterate hrun

theorem running_of_stuck (hstuck : Stuck (Consumer.step w) s) : s.running = false := by
  have hnone := hstuck ()
  unfold Consumer.step at hnone
  split at hnone
  next => cases hnone
  next hstop => exact Bool.eq_false_iff.mpr hstop

end Survival

/-- **The loop survives any content of the memory**: it ends, after at most one call more than there
    are READY slots. Every call looks at one of the sixteen slots and copies at most what fits into
    a payload and into the buffer; nothing behind the buffer is written, and a slot that has changed
    is one that a call has consumed. -/
theorem consumer_survives (q : SharedQueueLayout) :
    Halts (Consumer.step .consumer) (.start q) (fun s => s.running = false) ∧
      ∀ s, Reach (Consumer.step .consumer) (.start q) s →
        s.calls.length ≤ q.readyCount + 1 ∧
        (∀ c ∈ s.calls, c.slot < queueCapacity ∧
          c.copied ≤ min maxPayloadSize Wanted.consumer.size.toNat) ∧
        (∀ i, s.queue.slots i ≠ q.slots i →
          ∃ c ∈ s.calls, c.advanced = true ∧ c.slot = i.val) ∧
        ∀ j, Wanted.consumer.size.toNat ≤ j → s.buffer j = 0 := by
  have hstart := survives_start .consumer q
  refine ⟨?_, fun s hs => ?_⟩
  · exact halts_of_measure (I := Survives .consumer q) Consumer.left
      (fun _ _ _ h hs => survives_step h hs) hstart fun _ _ => running_of_stuck
  · have h : Survives .consumer q s :=
      hs.invariant hstart fun _ _ _ h _ hs => (survives_step h hs).1
    exact ⟨Nat.le_trans (Nat.le_add_right _ _) h.calls, h.inside, h.changed, h.buffer⟩

/-! ## 4. On a run of messages -/

/-- The message is of the type asked for. -/
def Wanted.wants (w : Wanted) (m : Message) : Bool := m.type = w.type.code

/-- The message fits into the buffer. -/
def Wanted.fits (w : Wanted) (m : Message) : Bool := m.length.toNat ≤ w.size.toNat

/-- **Where the loop stands on the messages `msgs`**: `done` is taken, `rest` is still in the queue,
    and it ends in front of a message that does not fit, or of none. -/
structure Drained (w : Wanted) (msgs done rest : List Message) (s : Consumer) : Prop where
  split : msgs = done ++ rest
  occupied : Occupied s.queue rest
  index : s.queue.readIndex.toNat + rest.length < 2 ^ 64
  fits : ∀ m ∈ done, w.fits m = true
  delivered : s.delivered = done.filter w.wants
  discarded : s.discarded = done.filter fun m => !w.wants m
  received : s.receivedTextCount = (done.filter w.wants).length
  skipped : s.skippedCount = (done.filter fun m => !w.wants m).length
  stopped : s.running = false → ∀ m ∈ rest.head?, w.fits m = false

section Drain

variable {w : Wanted} {msgs done rest : List Message} {s s' : Consumer}

theorem drained_start {q : SharedQueueLayout} (ho : Occupied q msgs)
    (hindex : q.readIndex.toNat + msgs.length < 2 ^ 64) :
    Drained w msgs [] msgs (.start q) :=
  ⟨rfl, ho, hindex, nofun, rfl, rfl, rfl, rfl, nofun⟩

/-- A call that takes nothing ends the loop. -/
theorem Drained.kept (h : Drained w msgs done rest s)
    (ht : ¬ Takes s.queue (w.job s.buffer s.header)) :
    Drained w msgs done rest { s with running := false, calls := s.calls ++ [s.kept] } := by
  refine ⟨h.split, h.occupied, h.index, h.fits, ?_, ?_, h.received, h.skipped, fun _ m hm => ?_⟩
  · rw [← h.delivered]
    simp [Consumer.delivered, Consumer.kept]
  · rw [← h.discarded]
    simp [Consumer.discarded, Consumer.kept]
  · obtain ⟨rest', rfl⟩ := List.head?_eq_some_iff.mp hm
    refine decide_eq_false fun hfit => ht ?_
    exact (h.occupied.takes_iff _).mpr ⟨m, rest', rfl, hfit⟩

/-- What a call that takes its slot finds there. -/
structure Drained.Head (w : Wanted) (s : Consumer) (m : Message) (rest : List Message) : Prop where
  fits : w.fits m = true
  message : s.slot.message = m
  occupied : Occupied s.queue.release rest
  index : s.queue.release.readIndex.toNat + rest.length < 2 ^ 64
  grows : s.queue.readIndex < s.queue.readIndex + 1

/-- A call that takes its slot finds the first message of the rest there. -/
theorem Drained.head (h : Drained w msgs done rest s)
    (ht : Takes s.queue (w.job s.buffer s.header)) :
    ∃ m rest', rest = m :: rest' ∧ Drained.Head w s m rest' := by
  obtain ⟨m, rest', rfl, hfit⟩ := (h.occupied.takes_iff _).mp ht
  have hindex := h.index
  rw [List.length_cons] at hindex
  have hnext : (s.queue.readIndex + 1).toNat = s.queue.readIndex.toNat + 1 := by
    rw [UInt64.toNat_add, UInt64.toNat_one]
    omega
  refine ⟨m, rest', rfl, decide_eq_true hfit, h.occupied.head_message, h.occupied.release, ?_, ?_⟩
  · show (s.queue.readIndex + 1).toNat + rest'.length < 2 ^ 64
    omega
  · rw [UInt64.lt_iff_toNat_lt]
    omega

/-- The message at the head goes over to the messages taken. -/
theorem Drained.take {m : Message} (h : Drained w msgs done (m :: rest) s)
    (hm : Drained.Head w s m rest) (hq : s'.queue = s.queue.release)
    (hrun : s'.running = true)
    (hdelivered : s'.delivered = s.delivered ++ [m].filter w.wants)
    (hdiscarded : s'.discarded = s.discarded ++ [m].filter fun m => !w.wants m)
    (hreceived : s'.receivedTextCount = s.receivedTextCount + ([m].filter w.wants).length)
    (hskipped : s'.skippedCount = s.skippedCount + ([m].filter fun m => !w.wants m).length) :
    Drained w msgs (done ++ [m]) rest s' where
  split := by rw [h.split, List.append_assoc]; rfl
  occupied := by rw [hq]; exact hm.occupied
  index := by rw [hq]; exact hm.index
  fits m' hm' := by
    rcases List.mem_append.mp hm' with hm' | hm'
    · exact h.fits m' hm'
    · rw [List.mem_singleton.mp hm']
      exact hm.fits
  delivered := by rw [hdelivered, h.delivered, List.filter_append]
  discarded := by rw [hdiscarded, h.discarded, List.filter_append]
  received := by rw [hreceived, h.received, List.filter_append, List.length_append]
  skipped := by rw [hskipped, h.skipped, List.filter_append, List.length_append]
  stopped hstop := by rw [hrun] at hstop; cases hstop

/-- **Every iteration takes the next message, or is the last.** -/
theorem Drained.iterate (h : Drained w msgs done rest s) (hrun : s.running = true) :
    ∃ done' rest', Drained w msgs done' rest' (s.iterate w) := by
  rcases iterate_cases w s with ⟨ht, e⟩ | ⟨ht, hty, e⟩ | ⟨ht, hty, -, e⟩ | ⟨ht, -, hwrap, -⟩
  · exact ⟨done, rest, e ▸ h.kept ht⟩
  · obtain ⟨m, rest', rfl, hm⟩ := h.head ht
    have hwant : w.wants m = true := decide_eq_true (hm.message ▸ hty)
    refine ⟨done ++ [m], rest', e ▸ h.take hm rfl hrun ?_ ?_ ?_ ?_⟩
    · simp [Consumer.delivered, Consumer.taken, hwant, hm.message]
    · simp [Consumer.discarded, Consumer.taken, hwant]
    · simp [hwant]
    · simp [hwant]
  · obtain ⟨m, rest', rfl, hm⟩ := h.head ht
    have hwant : w.wants m = false := decide_eq_false (hm.message ▸ hty)
    refine ⟨done ++ [m], rest', e ▸ h.take hm rfl hrun ?_ ?_ ?_ ?_⟩
    · simp [Consumer.delivered, Consumer.dropped, hwant]
    · simp [Consumer.discarded, Consumer.dropped, hwant, hm.message]
    · simp [hwant]
    · simp [hwant]
  · obtain ⟨m, rest', rfl, hm⟩ := h.head ht
    exact absurd hm.grows hwrap

/-- At the end the messages taken are those in front of the first one that does not fit. -/
theorem Drained.at_end (h : Drained w msgs done rest s) (hstop : s.running = false) :
    Drained w msgs (msgs.takeWhile w.fits) (msgs.dropWhile w.fits) s := by
  have hrest : rest.takeWhile w.fits = [] ∧ rest.dropWhile w.fits = rest := by
    cases rest with
    | nil => exact ⟨rfl, rfl⟩
    | cons m rest' =>
        have hm := h.stopped hstop m rfl
        exact ⟨List.takeWhile_cons_of_neg (by simp [hm]), List.dropWhile_cons_of_neg (by simp [hm])⟩
  rw [h.split, List.takeWhile_append_of_pos h.fits, List.dropWhile_append_of_pos h.fits, hrest.1,
    hrest.2, List.append_nil, ← h.split]
  exact h

/-- **The loop takes the messages in front of the first one that does not fit**, and ends. -/
theorem drain_ends {q : SharedQueueLayout} (w : Wanted) (ho : Occupied q msgs)
    (hindex : q.readIndex.toNat + msgs.length < 2 ^ 64) :
    Halts (Consumer.step w) (.start q)
      (Drained w msgs (msgs.takeWhile w.fits) (msgs.dropWhile w.fits)) := by
  refine halts_of_measure (I := fun s => Survives w q s ∧ ∃ done rest, Drained w msgs done rest s)
    Consumer.left (fun s a s' ⟨hsurvives, done, rest, h⟩ hs => ?_)
    ⟨survives_start w q, [], msgs, drained_start ho hindex⟩
    fun s ⟨_, done, rest, h⟩ hstuck => h.at_end (running_of_stuck hstuck)
  obtain ⟨hrun, rfl⟩ := step_eq hs
  obtain ⟨hsurvives', hless⟩ := hsurvives.iterate hrun
  exact ⟨⟨hsurvives', h.iterate hrun⟩, hless⟩

end Drain

/-- **The loop of the consumer reports what was queued**: after a session without refused pushes it
    ends with every slot EMPTY, has counted the TEXT messages and the others, and the bytes it has
    copied into its buffer are the TEXT payloads in the order of their pushes. -/
theorem consumer_reports (memory : SharedQueueLayout) {s : Session}
    (h : ReachWhere Session.step NotRefused (.start memory) s)
    (hfew : s.accepted.length < 2 ^ 64) :
    ∃ msgs, Occupied s.queue msgs ∧ s.accepted = s.consumed ++ msgs ∧
      Halts (Consumer.step .consumer) (.start s.queue) fun e =>
        (∀ i, (e.queue.slots i).state = SlotState.empty.code) ∧
        e.receivedTextCount = msgs.countP (fun m => m.type = MessageType.text.code) ∧
        e.skippedCount = msgs.countP (fun m => m.type ≠ MessageType.text.code) ∧
        e.delivered.map Message.bytes =
          (msgs.filter fun m => m.type = MessageType.text.code).map Message.bytes := by
  obtain ⟨msgs, hm⟩ := recorded_reach h
  have ho := hm.holds.occupied
  have hindex : s.queue.readIndex.toNat + msgs.length < 2 ^ 64 := by
    rw [hm.split, List.length_append] at hfew
    rw [hm.index, Nat.mod_eq_of_lt (by omega)]
    exact hfew
  refine ⟨msgs, ho, hm.split, (drain_ends .consumer ho hindex).mono fun e he => ?_⟩
  have hall : ∀ m ∈ msgs, Wanted.consumer.fits m = true :=
    fun m hmem => decide_eq_true (ho.fits m hmem)
  rw [List.takeWhile_eq_self_iff.mpr hall, List.dropWhile_eq_nil_iff.mpr hall] at he
  refine ⟨fun i => ?_, ?_, ?_, ?_⟩
  · exact (he.occupied.empty_iff i).mpr (Nat.zero_le _)
  · rw [he.received, List.countP_eq_length_filter]
    rfl
  · rw [he.skipped, List.countP_eq_length_filter]
    exact congrArg List.length (List.filter_congr fun _ _ => decide_not.symm)
  · rw [he.delivered]
    rfl

theorem consumer_reports_demo :
    ∃ s, ReachWhere Session.step NotRefused (.start .fresh) s ∧ s.accepted.length = 2 ∧
      ∃ msgs, Occupied s.queue msgs ∧ s.accepted = s.consumed ++ msgs ∧
        Halts (Consumer.step .consumer) (.start s.queue) fun e =>
          (∀ i, (e.queue.slots i).state = SlotState.empty.code) ∧
          e.receivedTextCount = msgs.countP (fun m => m.type = MessageType.text.code) ∧
          e.skippedCount = msgs.countP (fun m => m.type ≠ MessageType.text.code) ∧
          e.delivered.map Message.bytes =
            (msgs.filter fun m => m.type = MessageType.text.code).map Message.bytes := by
  have h1 : ReachWhere Session.step NotRefused (.start .fresh) (.start .fresh) := .start
  have h2 := h1.next _ _ (Call.push pushNumber) (fun _ => rfl) rfl
  have h3 := h2.next _ _ (Call.push pushText) (fun _ => by decide +kernel) rfl
  exact ⟨_, h3, rfl, consumer_reports .fresh h3 (by decide)⟩

/-! ## 5. Unwanted messages -/

/-- The call is a push that is accepted. -/
def Session.accepts (s : Session) : Call → Bool
  | .push a => (tryPushMessage s.queue a).2
  | .pop _ => false

/-- The messages in front of the first one of the type asked for that does not fit. -/
def Wanted.reached (w : Wanted) (msgs : List Message) : List Message :=
  msgs.takeWhile fun m => !(w.wants m && !w.fits m)

/-- **What a loop owes its caller**: in order, the messages of its type in front of the first one
    that does not fit; the others in front of it are discarded, whatever their length. -/
def Wanted.Served (w : Wanted) (msgs : List Message) (e : Consumer) : Prop :=
  e.delivered = (w.reached msgs).filter w.wants ∧
    e.discarded = (w.reached msgs).filter fun m => !w.wants m

theorem notRefused_of_accepts {s : Session} {c : Call} (h : s.accepts c = true) :
    NotRefused s c := by
  cases c with
  | pop a => cases h
  | push a =>
      intro hg
      obtain ⟨job, hjob⟩ := Option.ne_none_iff_exists'.mp hg
      refine Classical.not_not.mp fun ho => ?_
      rw [Session.accepts, tryPushMessage_occupied hjob ho] at h
      cases h

/-- Pushes consume nothing. -/
theorem consumed_of_accepts {memory : SharedQueueLayout} {s : Session}
    (h : ReachWhere Session.step (fun s c => s.accepts c = true) (.start memory) s) :
    s.consumed = [] := by
  refine h.invariant (I := fun s => s.consumed = []) rfl fun s c s' hI hc hs => ?_
  obtain rfl := Option.some.inj hs
  cases c with
  | push a => exact hI
  | pop a => cases hc

/-- A loop that stops at the first message that does not fit has served its caller exactly when
    every message it should have passed over does fit. -/
theorem served_iff (w : Wanted) (msgs : List Message) :
    ((msgs.takeWhile w.fits).filter w.wants = (w.reached msgs).filter w.wants ∧
      ((msgs.takeWhile w.fits).filter fun m => !w.wants m) =
        (w.reached msgs).filter fun m => !w.wants m) ↔
      ∀ m ∈ w.reached msgs, w.wants m = false → w.fits m = true := by
  unfold Wanted.reached
  induction msgs with
  | nil => simp
  | cons m msgs ih =>
      by_cases hfit : w.fits m = true
      · by_cases hwant : w.wants m = true <;> simpa [hfit, hwant] using ih
      · by_cases hwant : w.wants m = true <;> simp [hfit, hwant]

/-- **The loop serves its caller exactly when no message of another type that it should pass over is
    too long for the buffer**, on every queue filled by accepted pushes. -/
theorem drain_delivers_iff (memory : SharedQueueLayout) (w : Wanted) {s : Session}
    (h : ReachWhere Session.step (fun s c => s.accepts c = true) (.start memory) s) :
    Halts (Consumer.step w) (.start s.queue) (w.Served s.accepted) ↔
      ∀ m ∈ w.reached s.accepted, w.wants m = false → w.fits m = true := by
  obtain ⟨msgs, hm⟩ := recorded_reach (h.mono fun _ _ => notRefused_of_accepts)
  have hnone := consumed_of_accepts h
  have hall : s.accepted = msgs := by rw [hm.split, hnone, List.nil_append]
  have hindex : s.queue.readIndex.toNat + msgs.length < 2 ^ 64 := by
    have hb := hm.holds.occupied.bounded
    rw [hm.index, hnone, List.length_nil]
    omega
  have hends := drain_ends w hm.holds.occupied hindex
  rw [hall, ← served_iff]
  constructor
  · intro hserved
    obtain ⟨e, hreach, hstuck, hdrained⟩ := hends.exists_end
    rw [← hdrained.delivered, ← hdrained.discarded]
    exact hserved.ends e hreach hstuck
  · intro hsame
    refine hends.mono fun e he => ?_
    rw [Wanted.Served, he.delivered, he.discarded]
    exact hsame

theorem drain_delivers_iff_demo :
    ∃ s, ReachWhere Session.step (fun s c => s.accepts c = true) (.start .fresh) s ∧
      s.accepted.length = 2 ∧ Halts (Consumer.step .consumer) (.start s.queue)
        (Wanted.consumer.Served s.accepted) := by
  obtain ⟨s, hs, hp⟩ := reach_of_run Session.step Session.accepts (.start .fresh)
    [.push pushNumber, .push pushText]
    (fun s => decide (s.accepted.length = 2 ∧ ∀ m ∈ s.accepted, Wanted.consumer.fits m = true))
    (by decide +kernel)
  obtain ⟨hlen, hfits⟩ := of_decide_eq_true hp
  refine ⟨s, hs, hlen, (drain_delivers_iff .fresh .consumer hs).mpr fun m hm _ => hfits m ?_⟩
  exact (List.takeWhile_prefix _).subset hm

/-- **An unwanted message blocks the loop**: a NUMBER of four bytes stands before a TEXT of one, and
    the buffer has one byte. The TEXT should be delivered, and the loop ends without it. -/
theorem drain_blocked :
    ∃ s, ReachWhere Session.step (fun s c => s.accepts c = true) (.start .fresh) s ∧
      (Wanted.reached ⟨.text, 1⟩ s.accepted).filter (Wanted.wants ⟨.text, 1⟩) = [⟨1, 1, [65]⟩] ∧
      ∃ e, Reach (Consumer.step ⟨.text, 1⟩) (.start s.queue) e ∧ e.running = false ∧
        e.delivered = [] ∧ e.discarded = [] := by
  obtain ⟨s, hs, hp⟩ := reach_of_run Session.step Session.accepts (.start .fresh)
    [.push pushNumber, .push oneByte]
    (fun s => decide ((Wanted.reached ⟨.text, 1⟩ s.accepted).filter (Wanted.wants ⟨.text, 1⟩) =
      [⟨1, 1, [65]⟩] ∧ let e := (Consumer.start s.queue).iterate ⟨.text, 1⟩
        e.running = false ∧ e.delivered = [] ∧ e.discarded = []))
    (by decide +kernel)
  obtain ⟨hdue, hend⟩ := of_decide_eq_true hp
  exact ⟨s, hs, hdue, _, .single (a := ()) trivial rfl, hend⟩

end HseMultithreading.Hw4
