/-
  File:      HseMultithreading/Hw4/Session.lean
  Subject:   Sequences of complete `try_push_message` and `try_pop_message` calls on a queue that
             `init_queue` has set up: the queue as a bounded FIFO, and where it stops being one.

  A `Session` is the queue with two lists kept beside it: the messages whose push returned
  `true`, and the messages the pops took out of their slots (delivered or discarded).

  * As long as no push was refused for an occupied slot, the ring refines a FIFO of at most
    sixteen messages (`session_refines_fifo`), at the wrap of the indices too.
  * A refused push has taken its ticket. Once the tickets have run past the first free slot, an
    accepted push leaves a gap (`¬ NoGap`); the reader comes to the gap, finds it EMPTY and stops
    although messages wait behind it (`Gapped.stalls`). Without such a push the order and the
    progress of a FIFO hold, refusals or not (`session_inv`).
-/
import Mathlib.Algebra.Group.Nat.Defs
import HseMultithreading.Lib.Run
import HseMultithreading.Hw4.Ring

namespace HseMultithreading.Hw4

open StepSystem

/-! ## 1. Sessions -/

/-- One complete call. -/
inductive Call where
  | push (a : PushArgs)
  | pop (a : PopArgs)

/-- The queue, the messages accepted and the messages consumed, both in order. -/
structure Session where
  queue : SharedQueueLayout
  accepted : List Message
  consumed : List Message

/-- The session of a queue that `init_queue` has just set up. -/
def Session.start (memory : SharedQueueLayout) : Session := ⟨initQueue memory, [], []⟩

/-- The effect of one call on a session. A pop has consumed a message exactly when it advanced
    `read_index`. -/
def Session.call (s : Session) : Call → Session
  | .push a =>
    let r := tryPushMessage s.queue a
    ⟨r.1, if r.2 then s.accepted ++ (a.guard.map PushJob.message).toList else s.accepted,
      s.consumed⟩
  | .pop a =>
    let r := tryPopMessage s.queue a
    ⟨r.queue, s.accepted,
      if r.queue.readIndex ≠ s.queue.readIndex then
        s.consumed ++ [(s.queue.slots (getSlot s.queue.readIndex)).message]
      else s.consumed⟩

/-- Sessions as a step function: every call is possible in every session. -/
def Session.step (s : Session) (c : Call) : Option Session := some (s.call c)

/-- What a call gives back: its result and, of a pop, the out parameters. -/
inductive Reply where
  | pushed (accepted : Bool)
  | popped (delivered : Bool) (outBuffer : Option (ℕ → UInt8)) (outHeader : Option MessageHeader)

/-- One complete call: the queue it leaves and what it gives back. -/
def SharedQueueLayout.reply (q : SharedQueueLayout) : Call → SharedQueueLayout × Reply
  | .push a => ((tryPushMessage q a).1, .pushed (tryPushMessage q a).2)
  | .pop a =>
    let r := tryPopMessage q a
    (r.queue, .popped r.popped r.outBuffer r.outHeader)

section Calls

variable {s : Session}

/-- A session's queue is what the calls leave. -/
theorem call_queue (s : Session) (c : Call) : (s.call c).queue = (s.queue.reply c).1 := by
  cases c <;> rfl

theorem call_push_none {a : PushArgs} (h : a.guard = none) : s.call (.push a) = s := by
  simp [Session.call, tryPushMessage_none h]

theorem call_push_occupied {a : PushArgs} {job : PushJob} (h : a.guard = some job)
    (ho : (s.queue.slots (getSlot s.queue.writeIndex)).state ≠ SlotState.empty.code) :
    s.call (.push a) =
      { s with queue := { s.queue with writeIndex := s.queue.writeIndex + 1 } } := by
  simp [Session.call, tryPushMessage_occupied h ho]

theorem call_push_accepted {a : PushArgs} {job : PushJob} (h : a.guard = some job)
    (he : (s.queue.slots (getSlot s.queue.writeIndex)).state = SlotState.empty.code) :
    s.call (.push a) =
      ⟨({ s.queue with writeIndex := s.queue.writeIndex + 1 } : SharedQueueLayout).setSlot
        (getSlot s.queue.writeIndex) (job.fill (s.queue.slots (getSlot s.queue.writeIndex))),
        s.accepted ++ [job.message], s.consumed⟩ := by
  simp [Session.call, tryPushMessage_accepted h he, h]

theorem call_pop_keeps {a : PopArgs} (h : ∀ job, a.guard = some job → ¬ Takes s.queue job) :
    s.call (.pop a) = s := by
  have hr : tryPopMessage s.queue a = ⟨s.queue, a.outBuffer, a.outHeader, false⟩ := by
    cases hg : a.guard with
    | none => exact tryPopMessage_none hg
    | some job => exact tryPopMessage_keeps hg (h job hg)
  simp [Session.call, hr]

theorem call_pop_takes {a : PopArgs} {job : PopJob} (h : a.guard = some job)
    (ht : Takes s.queue job) :
    s.call (.pop a) = ⟨s.queue.release, s.accepted,
      s.consumed ++ [(s.queue.slots (getSlot s.queue.readIndex)).message]⟩ := by
  have hq : (tryPopMessage s.queue a).queue = s.queue.release := by
    rw [tryPopMessage_takes h ht]
    split <;> rfl
  simp only [Session.call, hq, if_pos (release_readIndex_ne s.queue)]

end Calls

/-! ## 2. The bounded FIFO -/

/-- **The queue represents the list `msgs`**: the ring is occupied by `msgs`, and the indices,
    as wrapping 64-bit words, are `msgs.length` apart. -/
structure Holds (q : SharedQueueLayout) (msgs : List Message) : Prop where
  occupied : Occupied q msgs
  count : (q.writeIndex - q.readIndex).toNat = msgs.length

section Holds

variable {q : SharedQueueLayout} {msgs : List Message}

theorem holds_fresh : Holds .fresh [] := ⟨occupied_fresh, rfl⟩

/-- The ticket of the next push is the first place behind the messages. -/
theorem Holds.ticket_slot (h : Holds q msgs) :
    getSlot q.writeIndex = slotAt q.readIndex msgs.length := by
  have hc := h.count
  have hr := q.readIndex.toNat_lt
  have hw := q.writeIndex.toNat_lt
  rw [UInt64.toNat_sub] at hc
  apply Fin.ext
  rw [getSlot_val, slotAt_val, ← hc]
  omega

/-- The slot of the next ticket is free exactly when the queue is not full. -/
theorem Holds.empty_iff (h : Holds q msgs) :
    (q.slots (getSlot q.writeIndex)).state = SlotState.empty.code ↔ msgs.length < 16 := by
  have hb := h.occupied.bounded
  rw [h.ticket_slot]
  constructor
  · intro he
    refine Nat.lt_of_le_of_ne hb fun h16 => ?_
    -- a full ring: the sixteenth place is the first again, and that one is READY
    have hr := h.occupied.ready 0 (by omega)
    have hz : slotAt q.readIndex msgs.length = slotAt q.readIndex 0 := by
      apply Fin.ext
      rw [slotAt_val, slotAt_val, h16]
      omega
    rw [hz, hr] at he
    simp at he
  · intro hlt
    exact h.occupied.empty _ (Nat.le_refl _) hlt

theorem Holds.accept (h : Holds q msgs) (job : PushJob) (hlt : msgs.length < 16) :
    Holds (({ q with writeIndex := q.writeIndex + 1 } : SharedQueueLayout).setSlot
      (getSlot q.writeIndex) (job.fill (q.slots (getSlot q.writeIndex))))
      (msgs ++ [job.message]) := by
  refine ⟨(h.occupied.ticket (q.writeIndex + 1)).accept job hlt h.ticket_slot, ?_⟩
  have hc := h.count
  have hr := q.readIndex.toNat_lt
  have hw := q.writeIndex.toNat_lt
  rw [setSlot_writeIndex, setSlot_readIndex]
  simp only [UInt64.toNat_sub, UInt64.toNat_add, UInt64.toNat_one, List.length_append,
    List.length_singleton] at hc ⊢
  omega

theorem Holds.release {m : Message} (h : Holds q (m :: msgs)) : Holds q.release msgs := by
  refine ⟨h.occupied.release, ?_⟩
  have hc := h.count
  have hr := q.readIndex.toNat_lt
  have hw := q.writeIndex.toNat_lt
  simp only [SharedQueueLayout.release, setSlot_writeIndex, UInt64.toNat_sub, UInt64.toNat_add,
    UInt64.toNat_one, List.length_cons] at hc ⊢
  omega

/-- The head of the represented list is what the slot at `read_index` holds. -/
theorem Occupied.head_message {m : Message} (h : Occupied q (m :: msgs)) :
    (q.slots (getSlot q.readIndex)).message = m :=
  h.message 0 (Nat.succ_pos _)

end Holds

/-- What a push does to a queue that represents `msgs`: with non-null data of at most
    `MAX_PAYLOAD_SIZE` bytes it returns `true` and appends when there are fewer than sixteen
    messages, and otherwise returns `false` and appends nothing. -/
def PushRefines (q : SharedQueueLayout) (msgs : List Message) : Prop :=
  ∀ (type : MessageType) (data : ℕ → UInt8) (length : UInt64), length.toNat ≤ maxPayloadSize →
    let r := tryPushMessage q ⟨false, type, some data, length⟩
    let m : Message := ⟨type.code, UInt32.ofNat length.toNat, readBytes data length.toNat⟩
    if msgs.length < queueCapacity then r.2 = true ∧ Holds r.1 (msgs ++ [m])
    else r.2 = false ∧ Occupied r.1 msgs

/-- The result of a pop that returns `false` and changes nothing. -/
def PopRefuses (q : SharedQueueLayout) (buffer : ℕ → UInt8) (header : MessageHeader)
    (r : PopResult) : Prop :=
  r.popped = false ∧ r.queue = q ∧ r.outBuffer = some buffer ∧ r.outHeader = some header

/-- The result of a pop that removes the head `m`: delivered into the caller's memory when the
    type matches, otherwise discarded with the caller's memory untouched. -/
def PopRemoves (expectedType : MessageType) (buffer : ℕ → UInt8) (header : MessageHeader)
    (m : Message) (rest : List Message) (r : PopResult) : Prop :=
  Holds r.queue rest ∧
  if m.type = expectedType.code then
    r.popped = true ∧ r.outHeader = some ⟨m.type, m.length⟩ ∧
    ∃ out, r.outBuffer = some out ∧ readBytes out m.length.toNat = m.bytes ∧
      ∀ j, m.length.toNat ≤ j → out j = buffer j
  else r.popped = false ∧ r.outBuffer = some buffer ∧ r.outHeader = some header

/-- What a pop with non-null arguments does to a queue that represents `msgs`. -/
def PopRefines (q : SharedQueueLayout) (msgs : List Message) : Prop :=
  ∀ (expectedType : MessageType) (buffer : ℕ → UInt8) (size : UInt64) (header : MessageHeader),
    let r := tryPopMessage q ⟨false, expectedType, some buffer, size, some header⟩
    match msgs with
    | [] => PopRefuses q buffer header r
    | m :: rest =>
      if size.toNat < m.length.toNat then PopRefuses q buffer header r
      else PopRemoves expectedType buffer header m rest r

theorem Holds.pushRefines {q : SharedQueueLayout} {msgs : List Message} (h : Holds q msgs) :
    PushRefines q msgs := by
  intro type data length hl
  have hg : (⟨false, type, some data, length⟩ : PushArgs).guard =
      some ⟨type.code, data, length.toNat, hl⟩ := by
    simp only [PushArgs.guard, Bool.false_eq_true, if_false, dif_pos hl]
  by_cases hlt : msgs.length < 16
  · simp only [if_pos hlt]
    rw [tryPushMessage_accepted hg (h.empty_iff.mpr hlt)]
    exact ⟨rfl, h.accept _ hlt⟩
  · simp only [if_neg hlt]
    rw [tryPushMessage_occupied hg fun he => hlt (h.empty_iff.mp he)]
    exact ⟨rfl, h.occupied.ticket _⟩

/-- What a matching pop writes into the caller's buffer: the payload bytes in front, the old
    bytes behind them. -/
theorem copyOut_message {slot : MessageSlot} (buffer : ℕ → UInt8)
    (hfit : slot.header.length.toNat ≤ maxPayloadSize) :
    readBytes (copyOut buffer slot.payload slot.header.length.toNat) slot.header.length.toNat =
      slot.message.bytes := by
  symm
  refine take_payload hfit fun j hj => ?_
  simp [copyOut, hj]

theorem Holds.popRefines {q : SharedQueueLayout} {msgs : List Message} (h : Holds q msgs) :
    PopRefines q msgs := by
  intro expectedType buffer size header
  have hg : (⟨false, expectedType, some buffer, size, some header⟩ : PopArgs).guard =
      some ⟨expectedType.code, size.toNat, buffer, header⟩ := rfl
  have hkeep : ¬ Takes q ⟨expectedType.code, size.toNat, buffer, header⟩ →
      PopRefuses q buffer header
        (tryPopMessage q ⟨false, expectedType, some buffer, size, some header⟩) := by
    intro ht
    rw [tryPopMessage_keeps hg ht]
    exact ⟨rfl, rfl, rfl, rfl⟩
  cases msgs with
  | nil =>
      refine hkeep fun ht => ?_
      obtain ⟨m, rest, e, _⟩ := (h.occupied.takes_iff _).mp ht
      cases e
  | cons m rest =>
      by_cases hs : size.toNat < m.length.toNat
      · simp only [if_pos hs]
        refine hkeep fun ht => ?_
        obtain ⟨m', rest', e, hle⟩ := (h.occupied.takes_iff _).mp ht
        cases e
        exact absurd hs (Nat.not_lt.mpr hle)
      · simp only [if_neg hs]
        have ht := (h.occupied.takes_iff ⟨expectedType.code, size.toNat, buffer, header⟩).mpr
          ⟨m, rest, rfl, Nat.not_lt.mp hs⟩
        have hm := h.occupied.head_message
        have hty : (q.slots (getSlot q.readIndex)).header.type = m.type := congrArg Message.type hm
        have hle : (q.slots (getSlot q.readIndex)).header.length = m.length :=
          congrArg Message.length hm
        rw [tryPopMessage_takes hg ht]
        unfold PopRemoves
        rw [hty]
        split
        · refine ⟨h.release, rfl, ?_, _, rfl, ?_, fun j hj => ?_⟩
          · show some (q.slots (getSlot q.readIndex)).header = _
            rw [← hty, ← hle]
          · rw [← hm, ← copyOut_message buffer ht.2.1]
            rfl
          · rw [hle]
            exact dif_neg fun hc => absurd hc.1 (Nat.not_lt.mpr hj)
        · exact ⟨h.release, rfl, rfl, rfl⟩

/-- The call is no push that is refused because its slot is occupied. -/
def NotRefused (s : Session) : Call → Prop
  | .push a => a.guard ≠ none →
      (s.queue.slots (getSlot s.queue.writeIndex)).state = SlotState.empty.code
  | .pop _ => True

/-- **The books of a session without refusals**: the queue represents the messages accepted and not
    yet consumed, and `read_index` counts the messages consumed. -/
structure Recorded (s : Session) (msgs : List Message) : Prop where
  holds : Holds s.queue msgs
  split : s.accepted = s.consumed ++ msgs
  index : s.queue.readIndex.toNat = s.consumed.length % 2 ^ 64

theorem recorded_call {s : Session} {msgs : List Message} (h : Recorded s msgs) (c : Call)
    (hc : NotRefused s c) : ∃ msgs', Recorded (s.call c) msgs' := by
  cases c with
  | push a =>
      cases hg : a.guard with
      | none => exact ⟨msgs, by rw [call_push_none hg]; exact h⟩
      | some job =>
          have he := hc (by simp [hg])
          rw [call_push_accepted hg he]
          refine ⟨_, h.holds.accept job (h.holds.empty_iff.mp he), ?_, h.index⟩
          rw [h.split, List.append_assoc]
  | pop a =>
      by_cases ht : ∃ job, a.guard = some job ∧ Takes s.queue job
      · obtain ⟨job, hg, ht⟩ := ht
        obtain ⟨m, rest, rfl, _⟩ := (h.holds.occupied.takes_iff job).mp ht
        rw [call_pop_takes hg ht, h.holds.occupied.head_message]
        refine ⟨rest, h.holds.release, by rw [h.split, List.append_assoc]; rfl, ?_⟩
        have hindex := h.index
        show (s.queue.readIndex + 1).toNat = (s.consumed ++ [m]).length % 2 ^ 64
        rw [UInt64.toNat_add, UInt64.toNat_one, List.length_append, List.length_singleton]
        omega
      · rw [call_pop_keeps fun job hg ht' => ht ⟨job, hg, ht'⟩]
        exact ⟨msgs, h⟩

theorem recorded_reach {memory : SharedQueueLayout} {s : Session}
    (h : ReachWhere Session.step NotRefused (.start memory) s) : ∃ msgs, Recorded s msgs := by
  refine h.invariant (I := fun s => ∃ msgs, Recorded s msgs) ⟨[], holds_fresh, rfl, rfl⟩ ?_
  intro s c s' ⟨msgs, hm⟩ hc hs
  have e : s.call c = s' := Option.some.inj hs
  exact e ▸ recorded_call hm c hc

/-- **The queue refines a FIFO of at most sixteen messages**: after every sequence of complete
    calls in which no push was refused for an occupied slot, the READY slots hold a list in
    order, the indices are its length apart, and the next push and the next pop act on it. -/
theorem session_refines_fifo (memory : SharedQueueLayout) {s : Session}
    (h : ReachWhere Session.step NotRefused (.start memory) s) :
    ∃ msgs, Holds s.queue msgs ∧ PushRefines s.queue msgs ∧ PopRefines s.queue msgs := by
  obtain ⟨msgs, hm⟩ := recorded_reach h
  exact ⟨msgs, hm.holds, hm.holds.pushRefines, hm.holds.popRefines⟩

instance (s : Session) (c : Call) : Decidable (NotRefused s c) :=
  match c with
  | .push _ => inferInstanceAs (Decidable (_ → _))
  | .pop _ => instDecidableTrue

/-- A push of an empty message of the given type. -/
def pushOf (type : UInt32) : Call := .push ⟨false, ⟨type⟩, some fun _ => 0, 0⟩

/-- Sixteen messages fill the ring; three are taken, and three more come round to their slots. -/
def wrapped : List Call :=
  (List.range 16).map (fun i => pushOf (UInt32.ofNat i)) ++ List.replicate 3 (.pop popText) ++
    (List.range 3).map fun i => pushOf (UInt32.ofNat (16 + i))

theorem session_refines_fifo_wrapped :
    ∃ s, ReachWhere Session.step NotRefused (.start .fresh) s ∧
      s.consumed.map Message.type = [0, 1, 2] ∧ s.accepted.length = 19 ∧
      s.queue.readIndex = 3 ∧ s.queue.writeIndex = 19 ∧
      ∃ msgs, Holds s.queue msgs ∧ PushRefines s.queue msgs ∧ PopRefines s.queue msgs := by
  obtain ⟨s, hs, hp⟩ := reach_of_run Session.step (fun s c => decide (NotRefused s c))
    (.start .fresh) wrapped (fun s => decide (s.consumed.map Message.type = [0, 1, 2] ∧
      s.accepted.length = 19 ∧ s.queue.readIndex = 3 ∧ s.queue.writeIndex = 19))
    (by decide +kernel)
  have hs := hs.mono fun _ _ hc => of_decide_eq_true hc
  obtain ⟨hconsumed, haccepted, hread, hwrite⟩ := of_decide_eq_true hp
  exact ⟨s, hs, hconsumed, haccepted, hread, hwrite, session_refines_fifo .fresh hs⟩

/-! ## 3. Order and progress, with refused pushes -/

/-- The pops of a session come with a buffer for every payload. -/
def Call.bigBuffer : Call → Bool
  | .push _ => true
  | .pop a => decide (maxPayloadSize ≤ a.bufferSize.toNat)

/-- **What a FIFO owes its users**: the messages consumed are a prefix of the messages accepted,
    and whenever a message waits, the slot at `read_index` is READY. -/
def FifoOk (s : Session) : Prop :=
  s.consumed <+: s.accepted ∧
  ((∃ i, (s.queue.slots i).state = SlotState.ready.code) →
    (s.queue.slots (getSlot s.queue.readIndex)).state = SlotState.ready.code)

/-- **No gap in front of the ticket**: a push that finds the slot of its ticket EMPTY finds all
    slots from `read_index` up to that slot READY. -/
def NoGap (s : Session) : Call → Prop
  | .push a => a.guard ≠ none →
      (s.queue.slots (getSlot s.queue.writeIndex)).state = SlotState.empty.code →
      ∀ k < distance s.queue.readIndex (getSlot s.queue.writeIndex),
        (s.queue.slots (slotAt s.queue.readIndex k)).state = SlotState.ready.code
  | .pop _ => True

/-- The ring is a run behind `read_index` that holds what was accepted and not yet consumed. -/
def SessionInv (s : Session) : Prop :=
  ∃ msgs, Occupied s.queue msgs ∧ s.accepted = s.consumed ++ msgs

theorem SessionInv.fifoOk {s : Session} (h : SessionInv s) : FifoOk s := by
  obtain ⟨msgs, ho, ha⟩ := h
  refine ⟨⟨msgs, ha.symm⟩, fun ⟨i, hi⟩ => ?_⟩
  have hpos : 0 < msgs.length := Nat.zero_lt_of_lt ((ho.ready_iff i).mp hi)
  exact ho.ready 0 hpos

/-- Without a gap the slot of an accepted push is the first free one. -/
theorem ticket_of_noGap {s : Session} {msgs : List Message} (ho : Occupied s.queue msgs)
    {a : PushArgs} (hg : a.guard ≠ none) (hn : NoGap s (.push a))
    (he : (s.queue.slots (getSlot s.queue.writeIndex)).state = SlotState.empty.code) :
    msgs.length < 16 ∧ getSlot s.queue.writeIndex = slotAt s.queue.readIndex msgs.length := by
  have hle := (ho.empty_iff _).mp he
  have hd := distance_lt s.queue.readIndex (getSlot s.queue.writeIndex)
  have heq : distance s.queue.readIndex (getSlot s.queue.writeIndex) = msgs.length := by
    refine Nat.le_antisymm (Nat.le_of_not_lt fun hlt => ?_) hle
    have hr := hn hg he msgs.length hlt
    rw [ho.empty _ (Nat.le_refl _) (by omega)] at hr
    simp at hr
  exact ⟨by omega, by rw [← heq, slotAt_distance]⟩

theorem session_inv_call {s : Session} (h : SessionInv s) (c : Call) (hn : NoGap s c) :
    SessionInv (s.call c) := by
  obtain ⟨msgs, ho, ha⟩ := h
  cases c with
  | push a =>
      cases hg : a.guard with
      | none => rw [call_push_none hg]; exact ⟨msgs, ho, ha⟩
      | some job =>
          by_cases he : (s.queue.slots (getSlot s.queue.writeIndex)).state = SlotState.empty.code
          · obtain ⟨hlt, hi⟩ := ticket_of_noGap ho (by simp [hg]) hn he
            rw [call_push_accepted hg he]
            refine ⟨msgs ++ [job.message], (ho.ticket _).accept job hlt hi, ?_⟩
            rw [ha, List.append_assoc]
          · rw [call_push_occupied hg he]
            exact ⟨msgs, ho.ticket _, ha⟩
  | pop a =>
      by_cases ht : ∃ job, a.guard = some job ∧ Takes s.queue job
      · obtain ⟨job, hg, ht⟩ := ht
        obtain ⟨m, rest, e, _⟩ := (ho.takes_iff job).mp ht
        subst e
        rw [call_pop_takes hg ht, ho.head_message]
        exact ⟨rest, ho.release, by rw [ha, List.append_assoc]; rfl⟩
      · rw [call_pop_keeps fun job hg ht' => ht ⟨job, hg, ht'⟩]
        exact ⟨msgs, ho, ha⟩

theorem session_inv {C : Session → Call → Prop} {memory : SharedQueueLayout} {s : Session}
    (hC : ∀ s c, C s c → NoGap s c) (h : ReachWhere Session.step C (.start memory) s) :
    SessionInv s := by
  refine h.invariant (I := SessionInv) ⟨[], occupied_fresh, rfl⟩ fun s c s' hI hc hs => ?_
  have e : s.call c = s' := Option.some.inj hs
  exact e ▸ session_inv_call hI c (hC s c hc)

/-- **A gap**: `n` READY slots behind `read_index`, then an EMPTY one, and a READY slot `i`
    somewhere behind that. -/
structure Gapped (q : SharedQueueLayout) (n : ℕ) (i : Fin queueCapacity) : Prop where
  small : n < 16
  ready : ∀ k < n, (q.slots (slotAt q.readIndex k)).state = SlotState.ready.code
  fits : ∀ k < n, (q.slots (slotAt q.readIndex k)).header.length.toNat ≤ maxPayloadSize
  hole : (q.slots (slotAt q.readIndex n)).state = SlotState.empty.code
  waits : (q.slots i).state = SlotState.ready.code
  behind : ∀ k ≤ n, slotAt q.readIndex k ≠ i

theorem Gapped.release {q : SharedQueueLayout} {n : ℕ} {i : Fin queueCapacity}
    (h : Gapped q (n + 1) i) : Gapped q.release n i := by
  have hn := h.small
  refine ⟨by omega, fun k hk => ?_, fun k hk => ?_, ?_, ?_, fun k hk => ?_⟩
  · rw [release_slotAt q (by omega)]
    exact h.ready (k + 1) (by omega)
  · rw [release_slotAt q (by omega)]
    exact h.fits (k + 1) (by omega)
  · rw [release_slotAt q hn]
    exact h.hole
  · have hne : i ≠ getSlot q.readIndex := fun e => h.behind 0 (Nat.zero_le _) e.symm
    show ((q.setSlot (getSlot q.readIndex) .cleared).slots i).state = _
    rw [setSlot_slots_of_ne _ _ _ hne]
    exact h.waits
  · show slotAt (q.readIndex + 1) k ≠ i
    rw [slotAt_succ]
    exact h.behind (k + 1) (by omega)

/-- **The reader comes to a gap and stops**, with a message waiting behind it: `n` pops reach a
    state in which the slot at `read_index` is EMPTY and slot `i` is READY. -/
theorem Gapped.stalls {n : ℕ} {i : Fin queueCapacity} : ∀ {s : Session}, Gapped s.queue n i →
    ∃ s', ReachWhere Session.step (fun _ c => c.bigBuffer = true) s s' ∧ ¬ FifoOk s' := by
  induction n with
  | zero =>
      intro s h
      refine ⟨s, .start, fun hok => ?_⟩
      have hr := hok.2 ⟨i, h.waits⟩
      have he := h.hole
      rw [slotAt_zero, hr] at he
      simp at he
  | succ n ih =>
      intro s h
      have hg : popText.guard = some ⟨1, 256, fun _ => 0, ⟨0, 0⟩⟩ := rfl
      have hf := h.fits 0 (Nat.succ_pos n)
      have ht : Takes s.queue ⟨1, 256, fun _ => 0, ⟨0, 0⟩⟩ :=
        ⟨h.ready 0 (Nat.succ_pos n), hf, hf⟩
      have hq : (s.call (.pop popText)).queue = s.queue.release := by rw [call_pop_takes hg ht]
      obtain ⟨s', hs', hbad⟩ := ih (s := s.call (.pop popText)) (hq ▸ h.release)
      exact ⟨s', ReachWhere.trans (.next _ _ (.pop popText) .start rfl rfl) hs', hbad⟩

/-- An accepted push with a gap in front of its ticket leaves the gap in the queue. -/
theorem gapped_of_push {s : Session} {msgs : List Message} (ho : Occupied s.queue msgs)
    {a : PushArgs} (hn : ¬ NoGap s (.push a)) :
    Gapped (s.call (.push a)).queue msgs.length (getSlot s.queue.writeIndex) := by
  simp only [NoGap, Classical.not_imp, not_forall] at hn
  obtain ⟨hg, he, k, hk, hnr⟩ := hn
  obtain ⟨job, hg⟩ := Option.ne_none_iff_exists'.mp hg
  have hd := distance_lt s.queue.readIndex (getSlot s.queue.writeIndex)
  have hlt : msgs.length < distance s.queue.readIndex (getSlot s.queue.writeIndex) := by
    refine Nat.lt_of_not_le fun hle => hnr ?_
    exact ho.ready k (by omega)
  have hne : ∀ k ≤ msgs.length, slotAt s.queue.readIndex k ≠ getSlot s.queue.writeIndex := by
    intro k hk e
    have := distance_slotAt s.queue.readIndex (k := k) (by omega)
    rw [e] at this
    omega
  rw [call_push_accepted hg he]
  refine ⟨by omega, fun k hk => ?_, fun k hk => ?_, ?_, ?_, hne⟩
  · rw [setSlot_readIndex, setSlot_slots_of_ne _ _ _ (hne k (by omega))]
    exact ho.ready k hk
  · rw [setSlot_readIndex, setSlot_slots_of_ne _ _ _ (hne k (by omega))]
    have hm := congrArg Message.length (ho.message k hk)
    have hf := ho.fits _ (List.getElem_mem hk)
    rw [← hm] at hf
    exact hf
  · rw [setSlot_readIndex, setSlot_slots_of_ne _ _ _ (hne _ (Nat.le_refl _))]
    exact ho.empty _ (Nat.le_refl _) (by omega)
  · rw [setSlot_slots_self]
    rfl

/-- **Order and progress hold as long as no push is accepted behind a gap, and no longer**: in
    every session whose pushes all leave no gap the queue is a FIFO in every state, refused
    pushes or not; and a push that leaves one in such a session can be followed by pops that
    reach a state in which it is none. -/
theorem session_fifo_noGap (memory : SharedQueueLayout) {s : Session}
    (h : ReachWhere Session.step (fun s c => c.bigBuffer = true ∧ NoGap s c) (.start memory) s) :
    FifoOk s ∧ ∀ a : PushArgs, ¬ NoGap s (.push a) →
      ∃ s', ReachWhere Session.step (fun _ c => c.bigBuffer = true) (s.call (.push a)) s' ∧
        ¬ FifoOk s' := by
  have hI := session_inv (fun _ _ hc => hc.2) h
  refine ⟨hI.fifoOk, fun a hn => ?_⟩
  obtain ⟨msgs, ho, _⟩ := hI
  exact (gapped_of_push ho hn).stalls

instance (s : Session) (c : Call) : Decidable (NoGap s c) :=
  match c with
  | .push _ => inferInstanceAs (Decidable (_ → _ → _))
  | .pop _ => instDecidableTrue

/-- The ring is full, sixteen pushes are refused, four pops make room, and the next ticket comes
    just behind the messages that wait: one push is accepted, and two pops take two of them. -/
def refusedInTurn : List Call :=
  wrapped ++ List.replicate 16 (pushOf 99) ++ List.replicate 4 (.pop popText) ++
    [pushOf 19, .pop popText, .pop popText]

theorem session_fifo_noGap_refusedInTurn :
    ∃ s, ReachWhere Session.step (fun s c => c.bigBuffer = true ∧ NoGap s c) (.start .fresh) s ∧
      s.queue.writeIndex = 36 ∧
      s.accepted.map Message.type = (List.range 20).map UInt32.ofNat ∧
      s.consumed.map Message.type = (List.range 9).map UInt32.ofNat ∧
      FifoOk s ∧ ∀ a : PushArgs, ¬ NoGap s (.push a) →
        ∃ s', ReachWhere Session.step (fun _ c => c.bigBuffer = true) (s.call (.push a)) s' ∧
          ¬ FifoOk s' := by
  obtain ⟨s, hs, hp⟩ := reach_of_run Session.step (fun s c => c.bigBuffer && decide (NoGap s c))
    (.start .fresh) refusedInTurn (fun s => decide (s.queue.writeIndex = 36 ∧
      s.accepted.map Message.type = (List.range 20).map UInt32.ofNat ∧
      s.consumed.map Message.type = (List.range 9).map UInt32.ofNat)) (by decide +kernel)
  have hs := hs.mono fun _ _ hc =>
    (Bool.and_eq_true_iff.mp hc).imp_right of_decide_eq_true
  obtain ⟨hwrite, haccepted, hconsumed⟩ := of_decide_eq_true hp
  exact ⟨s, hs, hwrite, haccepted, hconsumed, session_fifo_noGap .fresh hs⟩

/-- Sixteen pushes fill the ring, the seventeenth is refused, sixteen pops drain the ring, and
    one more push is accepted: its ticket is 17, the reader stands at 16. -/
def fullThenDrained : List Call :=
  List.replicate 17 (pushOf 1) ++ List.replicate 16 (.pop popText) ++ [pushOf 2]

/-- Fifteen more pushes come round to the slot of the reader, and a pop takes the last of them. -/
def refilled : List Call :=
  fullThenDrained ++ List.replicate 15 (pushOf 3) ++ [.pop popText]

/-- **A refused push breaks the queue**: after it, a message waits while the reader stands before
    an EMPTY slot, and the refilled ring delivers a later message before an earlier one. -/
theorem session_refusal_breaks_fifo :
    (∃ s, ReachWhere Session.step (fun _ c => c.bigBuffer = true) (.start .fresh) s ∧
      (∃ i, (s.queue.slots i).state = SlotState.ready.code) ∧
      (s.queue.slots (getSlot s.queue.readIndex)).state ≠ SlotState.ready.code) ∧
    (∃ s, ReachWhere Session.step (fun _ c => c.bigBuffer = true) (.start .fresh) s ∧
      ¬ s.consumed <+: s.accepted) := by
  constructor
  · obtain ⟨s, hs, hp⟩ := reach_of_run Session.step (fun _ c => c.bigBuffer) (.start .fresh)
      fullThenDrained (fun s => decide ((∃ i, (s.queue.slots i).state = SlotState.ready.code) ∧
        (s.queue.slots (getSlot s.queue.readIndex)).state ≠ SlotState.ready.code))
      (by decide +kernel)
    exact ⟨s, hs, of_decide_eq_true hp⟩
  · obtain ⟨s, hs, hp⟩ := reach_of_run Session.step (fun _ c => c.bigBuffer) (.start .fresh)
      refilled (fun s => decide (¬ s.consumed <+: s.accepted)) (by decide +kernel)
    exact ⟨s, hs, of_decide_eq_true hp⟩

end HseMultithreading.Hw4
