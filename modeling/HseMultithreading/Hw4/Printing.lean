/-
  File:      HseMultithreading/Hw4/Printing.lean
  Subject:   WHAT `consumer_hw4` PRINTS. The buffer of `main` is used for every message, a pop
             overwrites as many bytes of it as the message has, and the print reads it as a C string
             without looking at the length.

  * `Exchange`, `Exchange.step` -- the loop with producers at the queue: complete pushes, of any
    number and any kind, come between its iterations.
  * `leftover` -- what the messages received so far have left at a place of the buffer.
  * **`printed_iff`** -- every text printed is that of its message, and found inside the buffer,
    exactly when each message brings a terminator with it or finds one right behind it.
  * `printed_wrong` -- a shorter message after a longer one, and one that fills the buffer.
-/
import HseMultithreading.Hw4.Consumer

namespace HseMultithreading.Hw4

open StepSystem

/-! ## 1. The loop with producers -/

/-- The consumer, and the messages whose push has returned `true`. -/
structure Exchange where
  consumer : Consumer
  accepted : List Message

def Exchange.start (memory : SharedQueueLayout) : Exchange := ⟨.start (initQueue memory), []⟩

inductive ExchangeAction where
  | push (a : PushArgs)
  | iterate

def Exchange.step (s : Exchange) : ExchangeAction → Option Exchange
  | .push a =>
    let r := tryPushMessage s.consumer.queue a
    some ⟨{ s.consumer with queue := r.1 },
      if r.2 then s.accepted ++ (a.guard.map PushJob.message).toList else s.accepted⟩
  | .iterate => (s.consumer.step .consumer ()).map fun c => { s with consumer := c }

/-- The text of a line. -/
def Output.text : Output → Option (Option (List UInt8))
  | .received text => some text
  | .skipped => none

/-- The texts printed for the messages received. -/
def Consumer.printed (s : Consumer) : List (Option (List UInt8)) := s.output.filterMap Output.text

/-- **What the messages have left at place `j` of the buffer**: the byte of the last one that is
    longer than `j`. -/
def leftover (msgs : List Message) (j : ℕ) : UInt8 :=
  msgs.foldl (fun byte m => if j < m.bytes.length then m.bytes.getD j 0 else byte) 0

/-- **The message is terminated in the buffer**: by a byte of its own, or by the byte right behind
    it, which the messages before it have left there. -/
def Terminated (before : List Message) (m : Message) : Prop :=
  0 ∈ m.bytes ∨ m.bytes.length < maxPayloadSize ∧ leftover before m.bytes.length = 0

/-- Every message is terminated. -/
def Clean (msgs : List Message) : Prop :=
  ∀ before m after, msgs = before ++ m :: after → Terminated before m

/-! ## 2. The buffer -/

theorem leftover_append (msgs : List Message) (m : Message) (j : ℕ) :
    leftover (msgs ++ [m]) j =
      if j < m.bytes.length then m.bytes.getD j 0 else leftover msgs j := by
  unfold leftover
  rw [List.foldl_append]
  rfl

theorem clean_append (msgs : List Message) (m : Message) :
    Clean (msgs ++ [m]) ↔ Clean msgs ∧ Terminated msgs m := by
  constructor
  · intro h
    refine ⟨fun before m' after e => h before m' (after ++ [m]) ?_, h msgs m [] rfl⟩
    rw [e, List.append_assoc]
    rfl
  · rintro ⟨h, hm⟩ before m' after e
    rcases List.eq_nil_or_concat after with rfl | ⟨after', last, rfl⟩
    · obtain ⟨rfl, hlast⟩ := List.append_inj' e rfl
      cases hlast
      exact hm
    · have e' : msgs ++ [m] = (before ++ m' :: after') ++ [last] := by
        rw [e, List.append_assoc]
        simp
      exact h before m' after' (List.append_inj' e' rfl).1

/-- The bytes behind the first `n`. -/
theorem readBytes_add (mem : ℕ → UInt8) (n k : ℕ) :
    readBytes mem (n + k) = readBytes mem n ++ readBytes (fun j => mem (n + j)) k := by
  unfold readBytes
  rw [List.range_add, List.map_append, List.map_map]
  rfl

theorem head?_readBytes (mem : ℕ → UInt8) (k : ℕ) :
    (readBytes mem k).head? = some 0 ↔ 0 < k ∧ mem 0 = 0 := by
  cases k with
  | zero => simp [readBytes]
  | succ k => simp [readBytes, List.range_succ_eq_map]

theorem getD_readBytes (mem : ℕ → UInt8) {n j : ℕ} (h : j < n) :
    (readBytes mem n).getD j 0 = mem j := by
  simp [readBytes, List.getD_eq_getElem?_getD, h]

section Receive

variable {w : Wanted} {c : Consumer}

/-- The bytes a pop has copied are those of its message. -/
theorem readBytes_filled (ht : Takes c.queue (w.job c.buffer c.header)) :
    readBytes c.filled c.slot.header.length.toNat = c.slot.message.bytes :=
  copyOut_message c.buffer ht.2.1

theorem length_message (ht : Takes c.queue (w.job c.buffer c.header)) :
    c.slot.message.bytes.length = c.slot.header.length.toNat := by
  rw [← readBytes_filled ht]
  simp [readBytes]

/-- The buffer after a message was received. -/
theorem filled_eq_leftover (ht : Takes c.queue (w.job c.buffer c.header)) {msgs : List Message}
    (hbuffer : ∀ j, c.buffer j = leftover msgs j) (j : ℕ) :
    c.filled j = leftover (msgs ++ [c.slot.message]) j := by
  rw [leftover_append, length_message ht]
  split
  next hj => rw [← readBytes_filled ht, getD_readBytes _ hj]
  next hj => rw [filled_of_le (Nat.not_lt.mp hj), hbuffer j]

/-- **The print finds the text of the message exactly when the message is terminated.** -/
theorem scan_filled_iff (ht : Takes c.queue (w.job c.buffer c.header)) {msgs : List Message}
    (hbuffer : ∀ j, c.buffer j = leftover msgs j) :
    CString.scan 0 (readBytes c.filled maxPayloadSize) =
        some (CString.text 0 c.slot.message.bytes) ↔
      Terminated msgs c.slot.message := by
  have hsplit : maxPayloadSize = c.slot.header.length.toNat +
      (maxPayloadSize - c.slot.header.length.toNat) := (Nat.add_sub_cancel' ht.2.1).symm
  have hbehind : c.filled (c.slot.header.length.toNat + 0) =
      leftover msgs c.slot.header.length.toNat := by
    rw [Nat.add_zero, filled_of_le (Nat.le_refl _), hbuffer]
  rw [hsplit, readBytes_add, readBytes_filled ht, CString.scan_append_iff, head?_readBytes, hbehind,
    Terminated, length_message ht, Nat.sub_pos_iff_lt]

end Receive

/-! ## 3. The invariant -/

/-- **The books of an exchange.** -/
structure Printed (s : Exchange) : Prop where
  ready : ∀ i, (s.consumer.queue.slots i).state = SlotState.ready.code →
    (s.consumer.queue.slots i).message ∈ s.accepted
  passed : ∀ m ∈ s.consumer.delivered, m ∈ s.accepted
  buffer : ∀ j, s.consumer.buffer j = leftover s.consumer.delivered j
  lines : s.consumer.printed.length = s.consumer.delivered.length
  clean : s.consumer.printed =
      (s.consumer.delivered.map fun m => some (CString.text 0 m.bytes)) ↔
    Clean s.consumer.delivered

section Steps

variable {s s' : Exchange}

theorem printed_start (memory : SharedQueueLayout) : Printed (.start memory) where
  ready i h := by
    have hne : SlotState.empty.code ≠ SlotState.ready.code := by decide
    exact absurd h hne
  passed := nofun
  buffer _ := rfl
  lines := rfl
  clean := by
    refine ⟨fun _ before m after e => ?_, fun _ => rfl⟩
    have hlen := congrArg List.length e
    simp [Exchange.start, Consumer.start, Consumer.delivered] at hlen

/-- A push changes neither the buffer nor what was printed. -/
theorem Printed.push (h : Printed s) (a : PushArgs) (hs : s.step (.push a) = some s') :
    Printed s' := by
  obtain rfl := Option.some.inj hs
  cases hg : a.guard with
  | none =>
      simp only [tryPushMessage_none hg, Bool.false_eq_true, if_false]
      exact h
  | some job =>
      by_cases he : (s.consumer.queue.slots (getSlot s.consumer.queue.writeIndex)).state =
          SlotState.empty.code
      · simp only [tryPushMessage_accepted hg he, if_true]
        refine ⟨fun i hi => ?_, fun m hm => List.mem_append_left _ (h.passed m hm), h.buffer,
          h.lines, h.clean⟩
        by_cases e : i = getSlot s.consumer.queue.writeIndex
        · subst e
          rw [setSlot_slots_self, job.message_fill]
          exact List.mem_append_right _ List.mem_cons_self
        · rw [setSlot_slots_of_ne _ _ _ e] at hi ⊢
          exact List.mem_append_left _ (h.ready i hi)
      · simp only [tryPushMessage_occupied hg he, Bool.false_eq_true, if_false]
        exact ⟨h.ready, h.passed, h.buffer, h.lines, h.clean⟩

/-- The messages that wait behind the one released have waited before. -/
theorem Printed.ready_release (h : Printed s) (i : Fin queueCapacity)
    (hi : (s.consumer.queue.release.slots i).state = SlotState.ready.code) :
    (s.consumer.queue.release.slots i).message ∈ s.accepted := by
  have hne : i ≠ getSlot s.consumer.queue.readIndex := by
    rintro rfl
    have hempty := congrArg MessageSlot.state
      (setSlot_slots_self s.consumer.queue (getSlot s.consumer.queue.readIndex) .cleared)
    have hcode : SlotState.empty.code = SlotState.ready.code := hempty.symm.trans hi
    exact absurd hcode (by decide)
  rw [release_slots_of_ne _ hne] at hi ⊢
  exact h.ready i hi

/-- An iteration that receives nothing. -/
theorem Printed.quiet (h : Printed s) {c : Consumer}
    (hq : c.queue = s.consumer.queue ∨ c.queue = s.consumer.queue.release)
    (hb : c.buffer = s.consumer.buffer) (hd : c.delivered = s.consumer.delivered)
    (hp : c.printed = s.consumer.printed) : Printed { s with consumer := c } where
  ready := by
    rcases hq with hq | hq <;> rw [hq]
    · exact h.ready
    · exact h.ready_release
  passed := by rw [hd]; exact h.passed
  buffer := by rw [hd, hb]; exact h.buffer
  lines := by rw [hd, hp]; exact h.lines
  clean := by rw [hd, hp]; exact h.clean

/-- An iteration that receives the message in its slot. -/
theorem Printed.receive (h : Printed s) {c : Consumer}
    (ht : Takes s.consumer.queue (Wanted.consumer.job s.consumer.buffer s.consumer.header))
    (hq : c.queue = s.consumer.queue.release) (hb : c.buffer = s.consumer.filled)
    (hd : c.delivered = s.consumer.delivered ++ [s.consumer.slot.message])
    (hp : c.printed = s.consumer.printed ++
      [CString.scan 0 (readBytes s.consumer.filled maxPayloadSize)]) :
    Printed { s with consumer := c } where
  ready := by rw [hq]; exact h.ready_release
  passed m hm := by
    rw [hd] at hm
    rcases List.mem_append.mp hm with hm | hm
    · exact h.passed m hm
    · rw [List.mem_singleton.mp hm]
      exact h.ready _ ht.1
  buffer := by rw [hd, hb]; exact filled_eq_leftover ht h.buffer
  lines := by rw [hd, hp, List.length_append, List.length_append, h.lines]; rfl
  clean := by
    have hlen : s.consumer.printed.length =
        (s.consumer.delivered.map fun m => some (CString.text 0 m.bytes)).length := by
      rw [List.length_map, h.lines]
    rw [hd, hp, List.map_append, clean_append, ← h.clean, ← scan_filled_iff ht h.buffer]
    constructor
    · intro e
      obtain ⟨hfront, hlast⟩ := List.append_inj e hlen
      exact ⟨hfront, (List.cons.inj hlast).1⟩
    · rintro ⟨hfront, hlast⟩
      rw [hfront, hlast]
      rfl

theorem Printed.iterate (h : Printed s) (hs : s.step .iterate = some s') : Printed s' := by
  obtain ⟨c, hc, rfl⟩ := Option.map_eq_some_iff.mp hs
  obtain ⟨-, rfl⟩ := step_eq hc
  rcases iterate_cases .consumer s.consumer with ⟨-, e⟩ | ⟨ht, -, e⟩ | ⟨-, -, -, e⟩ |
    ⟨-, -, -, e⟩
  · refine h.quiet (.inl ?_) ?_ ?_ ?_ <;> rw [e]
    · simp [Consumer.delivered, Consumer.kept]
    · simp [Consumer.printed]
  · refine h.receive ht ?_ ?_ ?_ ?_ <;> rw [e]
    · simp [Consumer.delivered, Consumer.taken]
    · simp [Consumer.printed, Output.text]
      rfl
  · refine h.quiet (.inr ?_) ?_ ?_ ?_ <;> rw [e]
    · simp [Consumer.delivered, Consumer.dropped]
    · simp [Consumer.printed, Output.text]
  · refine h.quiet (.inr ?_) ?_ ?_ ?_ <;> rw [e]
    · simp [Consumer.delivered, Consumer.dropped]
    · simp [Consumer.printed]

end Steps

theorem printed_reach {memory : SharedQueueLayout} {s : Exchange}
    (h : Reach Exchange.step (.start memory) s) : Printed s := by
  refine h.invariant (printed_start memory) fun s a s' hI _ hs => ?_
  cases a with
  | push a => exact hI.push a hs
  | iterate => exact hI.iterate hs

/-- **Every text printed is that of its message exactly when every message is terminated**: then it
    is the payload up to its first NUL byte, or all of it, and the scan has stayed in the buffer.
    The messages are messages that a push has accepted. -/
theorem printed_iff (memory : SharedQueueLayout) {s : Exchange}
    (h : Reach Exchange.step (.start memory) s) :
    (∀ m ∈ s.consumer.delivered, m ∈ s.accepted) ∧
      (s.consumer.printed = (s.consumer.delivered.map fun m => some (CString.text 0 m.bytes)) ↔
        Clean s.consumer.delivered) :=
  ⟨(printed_reach h).passed, (printed_reach h).clean⟩

/-- A push of the given bytes as TEXT. -/
def pushBytes (bytes : List UInt8) : ExchangeAction :=
  .push ⟨false, .text, some fun j => bytes.getD j 0, UInt64.ofNat bytes.length⟩

/-- `ok` without a NUL into a buffer of zeros, the text of the producer over it, and `hi` with its
    NUL over that. -/
def threeTexts : List ExchangeAction :=
  [pushBytes [111, 107], pushBytes textBytes, .iterate, .iterate, pushBytes [104, 105, 0], .iterate]

theorem printed_iff_threeTexts :
    ∃ s, Reach Exchange.step (.start .fresh) s ∧
      s.consumer.delivered = [⟨1, 2, [111, 107]⟩, ⟨1, 20, textBytes⟩, ⟨1, 3, [104, 105, 0]⟩] ∧
      s.consumer.printed = [some [111, 107], some textBytes.dropLast, some [104, 105]] ∧
      Clean s.consumer.delivered := by
  have hrun : (run (guarded Exchange.step fun _ _ => true) (.start .fresh) threeTexts).map
      (fun s => decide (s.consumer.delivered =
          [⟨1, 2, [111, 107]⟩, ⟨1, 20, textBytes⟩, ⟨1, 3, [104, 105, 0]⟩] ∧
        s.consumer.printed = [some [111, 107], some textBytes.dropLast, some [104, 105]])) =
      some true := by decide +kernel
  obtain ⟨s, hs, hp⟩ := reach_of_run _ _ _ _ _ hrun
  obtain ⟨hdelivered, hprinted⟩ := of_decide_eq_true hp
  refine ⟨s, hs.reach, hdelivered, hprinted, (printed_iff .fresh hs.reach).2.mp ?_⟩
  rw [hprinted, hdelivered]
  decide

/-- **What is printed can be wrong**: after `ab` the message `c` is printed as `cb`, and the text of
    a message of 256 bytes without a NUL does not end in the buffer. -/
theorem printed_wrong :
    (∃ s, Reach Exchange.step (.start .fresh) s ∧
      s.consumer.delivered = [⟨1, 2, [97, 98]⟩, ⟨1, 1, [99]⟩] ∧
      s.consumer.printed = [some [97, 98], some [99, 98]]) ∧
    ∃ s, Reach Exchange.step (.start .fresh) s ∧
      s.consumer.delivered = [⟨1, 256, List.replicate 256 65⟩] ∧ s.consumer.printed = [none] := by
  have hshort : (run (guarded Exchange.step fun _ _ => true) (.start .fresh)
      [pushBytes [97, 98], pushBytes [99], .iterate, .iterate]).map (fun s => decide (
        s.consumer.delivered = [⟨1, 2, [97, 98]⟩, ⟨1, 1, [99]⟩] ∧
        s.consumer.printed = [some [97, 98], some [99, 98]])) = some true := by decide +kernel
  have hfull : (run (guarded Exchange.step fun _ _ => true) (.start .fresh)
      [.push ⟨false, .text, some fun _ => 65, 256⟩, .iterate]).map (fun s => decide (
        s.consumer.delivered = [⟨1, 256, List.replicate 256 65⟩] ∧
        s.consumer.printed = [none])) = some true := by decide +kernel
  obtain ⟨s, hs, hp⟩ := reach_of_run _ _ _ _ _ hshort
  obtain ⟨s', hs', hp'⟩ := reach_of_run _ _ _ _ _ hfull
  exact ⟨⟨s, hs.reach, of_decide_eq_true hp⟩, s', hs'.reach, of_decide_eq_true hp'⟩

end HseMultithreading.Hw4
