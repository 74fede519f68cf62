/-
  File:      HseMultithreading/Hw4/Draining.lean
  Subject:   THE LOOP OF `consumer_hw4` WITH PRODUCERS AT WORK: `main`'s loop beside any number of
             producers inside `try_push_message`, one access to shared memory a step.

  The loop learns from two loads of `read_index`, one before and one after the call, whether a call
  that returned `false` has discarded a message. Meanwhile the producers go on.

  * `Draining`, `Draining.step` -- the step machine of Steps.lean with the loop in the place of a
    consumer that calls at will; the variables of `main` and the lines it prints;
  * `position_reach` -- the reader stands at the number of messages consumed, as a 64-bit word;
  * `Unreported` -- what the call in progress has consumed and the loop has not reported yet;
    `Keeps` -- what it leaves of the buffer; `Explained` -- what it gives up on;
  * **`draining_reports`** -- in every interleaving the loop reports every message it takes out of
    the queue, once, in order and with its content, counts it on the right side, prints what the
    messages received so far have left in the buffer, and leaves only on a slot that was not READY
    or on a message that its buffer is too small for.
-/
import Mathlib.Algebra.Group.Nat.Defs
import HseMultithreading.Hw4.Printing
import HseMultithreading.Hw4.Crash

namespace HseMultithreading.Hw4

open StepSystem

/-! ## 1. The machine -/

/-- Where the loop of `main` stands: what it does NEXT. -/
inductive LoopPc where
  | before
  | call (before : UInt64)
  | inside (before : UInt64)
  | after (before : UInt64) (popped : Bool)
  | ended
  deriving DecidableEq

/-- A line of the loop: a received text as it is printed, with the message that `header` and
    `buffer` hold at the time, or a skipped message. -/
inductive Report where
  | received (text : Option (List UInt8)) (message : Message)
  | skipped
  deriving DecidableEq

def Report.message : Report → Option Message
  | .received _ message => some message
  | .skipped => none

/-- The text of a line, as it is printed. -/
def Report.text : Report → Option (Option (List UInt8))
  | .received text _ => some text
  | .skipped => none

/-- The queue with everybody at it, and the variables of `main`. An observer writes down the state
    of the slot that the last call has loaded (`seen`). -/
structure Draining where
  system : System
  loop : LoopPc
  buffer : ℕ → UInt8
  header : MessageHeader
  receivedTextCount : ℕ
  skippedCount : ℕ
  reports : List Report
  seen : Option UInt32

def Draining.start (memory : SharedQueueLayout) : Draining :=
  ⟨.start memory, .before, fun _ => 0, ⟨0, 0⟩, 0, 0, [], none⟩

inductive DrainAction where
  | push (p : ℕ) (a : PushArgs)
  | produce (p : ℕ)
  | halt (p : ℕ)
  | loop

/-- What is written down when the call, standing at `pc`, takes its next step. -/
def Draining.see (d : Draining) : PopPc → Option UInt32
  | .loadState _ index => some (d.system.queue.slots (getSlot index)).state
  | _ => d.seen

/-- The next step of `main`, for a loop that asks for `w`. -/
def Draining.advance (w : Wanted) (d : Draining) : Option Draining :=
  match d.loop with
  | .before => some { d with loop := .call d.system.queue.readIndex }
  | .call before =>
    (d.system.step (.pop (w.args d.buffer d.header))).map fun s =>
      { d with system := s, loop := .inside before, seen := none }
  | .inside before =>
    match d.system.consumer with
    | none => none
    | some (.done job popped) =>
      -- The call returns: `buffer` and `header` are what it left behind the two pointers.
      some { d with
        system := d.system.consume (.done job popped)
        loop := .after before popped
        buffer := job.buffer
        header := job.header }
    | some pc => some { d with system := d.system.consume pc, seen := d.see pc }
  | .after before popped =>
    let after := d.system.queue.readIndex
    if popped then
      some { d with
        loop := .before
        receivedTextCount := d.receivedTextCount + 1
        reports := d.reports ++ [.received (CString.scan 0 (readBytes d.buffer w.size.toNat))
          ⟨d.header.type, d.header.length, readBytes d.buffer d.header.length.toNat⟩] }
    else if before < after then
      some { d with
        loop := .before
        skippedCount := d.skippedCount + 1
        reports := d.reports ++ [.skipped] }
    else some { d with loop := .ended }
  | .ended => none

/-- What the producers do, and what is done to them. -/
def Action.isProducer : Action → Bool
  | .push _ _ | .produce _ | .halt _ => true
  | .pop _ | .consume => false

/-- A step of a producer. -/
def Draining.produce (d : Draining) (a : Action) : Option Draining :=
  (d.system.step a).map fun s => { d with system := s }

/-- **One step of the system.** -/
def Draining.step (w : Wanted) (d : Draining) : DrainAction → Option Draining
  | .push p a => d.produce (.push p a)
  | .produce p => d.produce (.produce p)
  | .halt p => d.produce (.halt p)
  | .loop => d.advance w

/-- The slot at `read_index` holds a message that is longer than the buffer. -/
def SharedQueueLayout.TooLong (q : SharedQueueLayout) (w : Wanted) : Prop :=
  (q.slots (getSlot q.readIndex)).state = SlotState.ready.code ∧
    w.size.toNat < (q.slots (getSlot q.readIndex)).header.length.toNat ∧
    (q.slots (getSlot q.readIndex)).header.length.toNat ≤ maxPayloadSize

/-- **What a call gives up on**: a slot whose state it loaded and which was not READY, or a message
    that is longer than the buffer. -/
def GivesUp (w : Wanted) (q : SharedQueueLayout) (seen : Option UInt32) : Prop :=
  (∃ state, seen = some state ∧ state ≠ SlotState.ready.code) ∨
    seen = some SlotState.ready.code ∧ q.TooLong w

/-- **What is printed for the messages received**: for each one the buffer up to the first zero, as
    it and the ones before it have left the buffer. -/
def Wanted.prints (w : Wanted) (msgs : List Message) : List (Option (List UInt8)) :=
  (List.range msgs.length).map fun n =>
    CString.scan 0 (readBytes (leftover (msgs.take (n + 1))) w.size.toNat)

theorem Wanted.prints_append (w : Wanted) (msgs : List Message) (m : Message) :
    w.prints (msgs ++ [m]) =
      w.prints msgs ++ [CString.scan 0 (readBytes (leftover (msgs ++ [m])) w.size.toNat)] := by
  unfold Wanted.prints
  rw [List.length_append, List.length_singleton, List.range_succ, List.map_append,
    List.map_singleton, List.take_of_length_le (by simp)]
  congr 1
  refine List.map_congr_left fun n hn => ?_
  rw [List.take_append_of_le_length (List.mem_range.mp hn)]

/-- The messages taken out of their slots, as the caller got them. -/
def System.outs (s : System) : List (Option Message) := s.history.consumed.map (·.out)

/-! ## 2. The reader -/

/-- The reader stands at the number of messages consumed. -/
theorem position_reach {memory : SharedQueueLayout} {s : System}
    (h : Reach System.step (.start memory) s) :
    s.position = UInt64.ofNat s.history.consumed.length := by
  have hall := h.invariant
    (I := fun s => Inv s ∧ s.position = UInt64.ofNat s.history.consumed.length)
    ⟨inv_start memory, rfl⟩ <| by
      rintro s a s' ⟨hI, hpos⟩ - hs
      refine ⟨inv_step hI hs, ?_⟩
      rcases step_effect hI hs with hk | hk
      · rw [hk.position, hk.consumed, hpos]
      · obtain ⟨e, -, htags⟩ := hk.taken
        have hlen := congrArg List.length htags
        simp only [History.consumedTags, List.length_map, List.length_append,
          List.length_singleton] at hlen
        rw [hk.position, hlen, hpos]
        simp
  exact hall.2

/-- Outside of a call the reader stands at `read_index`. -/
theorem readIndex_idle {memory : SharedQueueLayout} {s : System}
    (h : Reach System.step (.start memory) s) (hc : s.consumer = none) :
    s.queue.readIndex = UInt64.ofNat s.outs.length := by
  have hpos := position_reach h
  unfold System.position at hpos
  rw [hc] at hpos
  rw [System.outs, List.length_map]
  exact hpos

/-! ## 3. What is not reported yet -/

/-- What a call has consumed since it began, given what was reported before it. -/
def PopPc.Unreported (reported outs : List (Option Message)) : PopPc → Prop
  | .storeIndex job _ hd => outs = reported ++
      [if hd.header.type = job.expected then some job.delivered else none]
  | .done job true => outs = reported ++ [some job.delivered]
  | .done _ false => outs = reported ∨ outs = reported ++ [none]
  | _ => outs = reported

section Call

variable {s : System} {reported : List (Option Message)}

/-- A step that takes nothing out of the queue. -/
theorem outs_consume {pc : PopPc}
    (hnr : ∀ job index hd k, pc = .clearByte job index hd k → k < maxPayloadSize) :
    (s.consume pc).outs = s.outs :=
  congrArg (List.map Consumed.out) (pending_consume s hnr).2

/-- **One step of the call**: what it consumes is what it will answer. -/
theorem unreported_consume (hI : Inv s) {pc pc' : PopPc} (hpc : s.consumer = some pc)
    (h : pc.Unreported reported s.outs) (hn : (popStep s.queue pc).2 = some pc') :
    pc'.Unreported reported (s.consume pc).outs := by
  have hkeep : (∀ job index hd k, pc = .clearByte job index hd k → k < maxPayloadSize) →
      (s.consume pc).outs = s.outs := outs_consume
  cases pc with
  | loadIndex job =>
      rw [hkeep fun _ _ _ _ e => by cases e]
      cases hn
      exact h
  | loadState job index =>
      rw [hkeep fun _ _ _ _ e => by cases e]
      simp only [popStep] at hn
      split at hn <;> cases hn
      · exact h
      · exact .inl h
  | loadType job index =>
      rw [hkeep fun _ _ _ _ e => by cases e]
      cases hn
      exact h
  | loadLength job index type =>
      rw [hkeep fun _ _ _ _ e => by cases e]
      cases hn
      exact PopPc.onHeader_cases (motive := fun pc => pc.Unreported reported s.outs) (.inl h)
        (fun _ _ _ => h) fun _ _ _ => h
  | copyByte job index hd k =>
      rw [hkeep fun _ _ _ _ e => by cases e]
      simp only [popStep] at hn
      split at hn <;> cases hn <;> exact h
  | clearType job index hd | clearLength job index hd =>
      rw [hkeep fun _ _ _ _ e => by cases e]
      cases hn
      exact h
  | clearByte job index hd k =>
      by_cases hk : k < maxPayloadSize
      · rw [hkeep fun _ _ _ _ e => by cases e; exact hk]
        rw [popStep_clear hk] at hn
        cases hn
        exact h
      · rw [popStep_release hk] at hn
        cases hn
        show ((s.history.consume s.queue _).consumed).map (·.out) = _
        rw [(consumed_release hI hpc hk).1, List.map_append]
        exact congrArg (· ++ _) h
  | storeIndex job index hd =>
      rw [hkeep fun _ _ _ _ e => by cases e]
      cases hn
      have h' : s.outs = reported ++
          [if hd.header.type = job.expected then some job.delivered else none] := h
      by_cases ht : hd.header.type = job.expected
      · rw [decide_eq_true ht]
        rw [if_pos ht] at h'
        exact h'
      · rw [decide_eq_false ht]
        rw [if_neg ht] at h'
        exact .inr h'
  | done job popped => cases hn

end Call

/-! ## 4. The buffer and the reason to give up -/

/-- What a call for `w` leaves of a buffer: all of it, or all behind the message it delivers. -/
def PopPc.Keeps (w : Wanted) (buffer : ℕ → UInt8) : PopPc → Prop
  | .loadIndex job | .loadState job _ | .loadType job _ | .loadLength job _ _ =>
    job.size = w.size.toNat ∧ job.buffer = buffer
  | .copyByte job _ hd _ => hd.header.type = job.expected ∧
      ∀ j, hd.header.length.toNat ≤ j → job.buffer j = buffer j
  | .clearType job _ hd | .clearLength job _ hd | .clearByte job _ hd _ | .storeIndex job _ hd =>
    if hd.header.type = job.expected then
      ∀ j, job.header.length.toNat ≤ j → job.buffer j = buffer j
    else job.buffer = buffer
  | .done job true => ∀ j, job.header.length.toNat ≤ j → job.buffer j = buffer j
  | .done job false => job.buffer = buffer

/-- Why a call is about to return `false` with nothing consumed. -/
def PopPc.Explained (w : Wanted) (q : SharedQueueLayout) (seen : Option UInt32)
    (reported outs : List (Option Message)) : PopPc → Prop
  | .loadType _ _ | .loadLength _ _ _ => seen = some SlotState.ready.code
  | .done _ false => outs = reported → GivesUp w q seen
  | _ => True

section Call

variable {s : System} {w : Wanted} {buffer : ℕ → UInt8} {reported : List (Option Message)}

theorem keeps_popStep {q : SharedQueueLayout} {pc pc' : PopPc} (h : pc.Keeps w buffer)
    (hn : (popStep q pc).2 = some pc') : pc'.Keeps w buffer := by
  cases pc with
  | loadIndex job | loadType job index | clearType job index hd | clearLength job index hd =>
      cases hn
      exact h
  | loadState job index =>
      simp only [popStep] at hn
      split at hn <;> cases hn
      · exact h
      · exact h.2
  | loadLength job index type =>
      cases hn
      refine PopPc.onHeader_cases h.2 (fun hd hh he => ⟨by rw [hh]; exact he, fun j _ => ?_⟩)
        fun hd hh he => ?_
      · rw [h.2]
      · rw [PopPc.Keeps, hh, if_neg he]
        exact h.2
  | copyByte job index hd k =>
      by_cases hk : k < hd.header.length.toNat
      · rw [popStep_copy hk] at hn
        cases hn
        refine ⟨h.1, fun j hj => ?_⟩
        have hne : j ≠ k := Nat.ne_of_gt (Nat.lt_of_lt_of_le hk hj)
        exact (Function.update_of_ne hne _ _).trans (h.2 j hj)
      · rw [popStep_copied hk] at hn
        cases hn
        rw [PopPc.Keeps, if_pos h.1]
        exact h.2
  | clearByte job index hd k =>
      simp only [popStep] at hn
      split at hn <;> cases hn <;> exact h
  | storeIndex job index hd =>
      cases hn
      rw [PopPc.Keeps] at h
      by_cases he : hd.header.type = job.expected
      · rw [if_pos he] at h
        rw [decide_eq_true he]
        exact h
      · rw [if_neg he] at h
        rw [decide_eq_false he]
        exact h
  | done job popped => cases hn

section Refused

variable {job : PopJob} {index : UInt64} {type : UInt32}

/-- What the call is about to measure is a message that was sent, and fits into a slot. -/
theorem measured_fits (hI : Inv s) (hpc : s.consumer = some (.loadLength job index type)) :
    (s.queue.slots (getSlot index)).state = SlotState.ready.code ∧
      (s.queue.slots (getSlot index)).header.length.toNat ≤ maxPayloadSize := by
  obtain ⟨sent, ⟨hslot, -⟩, -⟩ := (hI.phase (getSlot index)).held hpc rfl
  rw [hslot]
  refine ⟨rfl, ?_⟩
  show (UInt32.ofNat sent.length).toNat ≤ maxPayloadSize
  rw [sent.length_toNat]
  exact sent.fits

/-- A message that the call refuses is too long for `w`. -/
theorem tooLong_refused (hI : Inv s) (hpc : s.consumer = some (.loadLength job index type))
    (hsize : job.size = w.size.toNat)
    (hlong : job.size < (s.queue.slots (getSlot index)).header.length.toNat) :
    s.queue.TooLong w := by
  obtain ⟨hready, hfits⟩ := measured_fits hI hpc
  rw [SharedQueueLayout.TooLong, hI.cursor _ index hpc rfl]
  exact ⟨hready, by rw [← hsize]; exact hlong, hfits⟩

end Refused

/-- **One step of the call**: it gives up on what it has seen. -/
theorem explained_consume (hI : Inv s) {d : Draining} (hd : d.system = s) {pc pc' : PopPc}
    (hpc : s.consumer = some pc) (hk : pc.Keeps w buffer) (hu : pc.Unreported reported s.outs)
    (h : pc.Explained w s.queue d.seen reported s.outs) (hn : (popStep s.queue pc).2 = some pc') :
    pc'.Explained w (s.consume pc).queue (d.see pc) reported (s.consume pc).outs := by
  cases pc with
  | loadIndex job | clearType job index hdr | clearLength job index hdr =>
      cases hn
      trivial
  | loadState job index =>
      simp only [popStep] at hn
      split at hn <;> cases hn
      next hr => exact congrArg some (by rw [hd]; exact hr)
      next hr => exact fun _ => .inl ⟨_, congrArg some (by rw [hd]), hr⟩
  | loadType job index =>
      cases hn
      exact h
  | loadLength job index type =>
      cases hn
      unfold PopPc.onHeader
      split
      next =>
        split
        next hlong =>
          have htoo : s.queue.TooLong w := tooLong_refused hI hpc hk.1 hlong
          exact fun _ => .inr ⟨h, htoo⟩
        next => split <;> trivial
      next hfit => exact absurd (measured_fits hI hpc).2 hfit
  | copyByte job index hdr k =>
      simp only [popStep] at hn
      split at hn <;> cases hn <;> trivial
  | clearByte job index hdr k =>
      simp only [popStep] at hn
      split at hn <;> cases hn <;> trivial
  | storeIndex job index hdr =>
      cases hn
      have hu' : s.outs = reported ++
          [if hdr.header.type = job.expected then some job.delivered else none] := hu
      by_cases he : hdr.header.type = job.expected
      · rw [decide_eq_true he]
        trivial
      · rw [decide_eq_false he]
        intro e
        have hlen := congrArg List.length (e.symm.trans hu')
        simp at hlen
  | done job popped => cases hn

/-- A producer leaves a READY slot alone. -/
theorem ready_produce (hI : Inv s) {p : ℕ} {pc : PushPc} (hpc : s.producers p = some pc)
    {i : Fin queueCapacity} (hr : (s.queue.slots i).state = SlotState.ready.code) :
    (pushStep s.queue pc).1.slots i = s.queue.slots i := by
  by_cases ht : pc.touches = some i
  · have howns : pc.owns ≠ some i := fun ho => by
      have hw := ((hI.phase i).owned hpc ho).1.state
      rw [hr] at hw
      exact absurd hw (by decide)
    cases pc with
    | compareExchange job index =>
        obtain rfl := Option.some.inj ht
        rw [pushStep_refused (by rw [hr]; decide)]
    | fetchAdd job => cases ht
    | done pushed => cases ht
    | putType job j | putLength job j | copyByte job j k => exact absurd ht howns
  · exact pushStep_slots _ ht

/-- What a call gives up on stays as it is while producers go on. -/
theorem GivesUp.producer {s' : System} {a : Action} {seen : Option UInt32} (hI : Inv s)
    (h : GivesUp w s.queue seen) (hs : s.step a = some s')
    (ha : a.isProducer = true) :
    GivesUp w s'.queue seen := by
  rcases step_cases hs with ⟨p, args, -, -, -, rfl⟩ | ⟨p, pc, -, -, hpc, rfl⟩ | ⟨args, rfl, -, -⟩ |
    ⟨pc, rfl, -, -⟩ | ⟨p, -, rfl⟩
  · exact h
  · refine h.imp_right fun ⟨hseen, hr, hlong⟩ => ⟨hseen, ?_⟩
    show ((pushStep s.queue pc).1).TooLong w
    rw [SharedQueueLayout.TooLong, pushStep_readIndex, ready_produce hI hpc hr]
    exact ⟨hr, hlong⟩
  · cases ha
  · cases ha
  · exact h

end Call

/-! ## 5. The invariant -/

/-- What was reported so far. -/
def Draining.reported (d : Draining) : List (Option Message) := d.reports.map Report.message

/-- The messages received so far. -/
def Draining.received (d : Draining) : List Message := d.reports.filterMap Report.message

/-- The message that `header` and `buffer` hold. -/
def Draining.held (d : Draining) : Message :=
  ⟨d.header.type, d.header.length, readBytes d.buffer d.header.length.toNat⟩

/-- Where the consumer stands, what is not reported yet and what is in the buffer, by the place of
    the loop. -/
def Draining.Phase (w : Wanted) (d : Draining) : Prop :=
  match d.loop with
  | .before => d.system.consumer = none ∧ d.system.outs = d.reported ∧
      d.buffer = leftover d.received
  | .call before => d.system.consumer = none ∧ before = UInt64.ofNat d.reported.length ∧
      d.system.outs = d.reported ∧ d.buffer = leftover d.received
  | .inside before => before = UInt64.ofNat d.reported.length ∧ d.buffer = leftover d.received ∧
      ∃ pc, d.system.consumer = some pc ∧ pc.Unreported d.reported d.system.outs ∧
        pc.Keeps w d.buffer ∧
        pc.Explained w d.system.queue d.seen d.reported d.system.outs
  | .after before true => d.system.consumer = none ∧ before = UInt64.ofNat d.reported.length ∧
      d.system.outs = d.reported ++ [some d.held] ∧ d.buffer = leftover (d.received ++ [d.held])
  | .after before false => d.system.consumer = none ∧ before = UInt64.ofNat d.reported.length ∧
      (d.system.outs = d.reported ∨ d.system.outs = d.reported ++ [none]) ∧
      d.buffer = leftover d.received ∧
      (d.system.outs = d.reported → GivesUp w d.system.queue d.seen)
  | .ended => d.system.consumer = none ∧ d.system.outs = d.reported ∧
      GivesUp w d.system.queue d.seen

structure DrainInv (memory : SharedQueueLayout) (w : Wanted) (d : Draining) : Prop where
  reach : Reach System.step (.start memory) d.system
  phase : d.Phase w
  texts : d.reports.filterMap Report.text = w.prints d.received
  received : d.receivedTextCount = d.reported.countP Option.isSome
  skipped : d.skippedCount = d.reported.countP Option.isNone

section Steps

variable {memory : SharedQueueLayout} {w : Wanted} {d d' : Draining}

/-- What is not reported is at most one message, and none when the loop has ended. -/
theorem Draining.Phase.rest (h : d.Phase w) : d.system.outs = d.reported ∨
    d.loop ≠ .ended ∧ ∃ out, d.system.outs = d.reported ++ [out] := by
  unfold Draining.Phase at h
  cases hl : d.loop with
  | before => simp only [hl] at h; exact .inl h.2.1
  | call before => simp only [hl] at h; exact .inl h.2.2.1
  | inside before =>
      simp only [hl] at h
      obtain ⟨-, -, pc, -, hu, -⟩ := h
      cases pc with
      | storeIndex job index hd => exact .inr ⟨by simp, _, hu⟩
      | done job popped =>
          cases popped with
          | true => exact .inr ⟨by simp, _, hu⟩
          | false => exact hu.imp_right fun e => ⟨by simp, _, e⟩
      | _ => exact .inl hu
  | after before popped =>
      cases popped with
      | true => simp only [hl] at h; exact .inr ⟨by simp, _, h.2.2.1⟩
      | false => simp only [hl] at h; exact h.2.2.1.imp_right fun e => ⟨by simp, _, e⟩
  | ended => simp only [hl] at h; exact .inl h.2.1

/-- A step of a producer leaves the consumer and what it took alone. -/
theorem producer_outs {s s' : System} {a : Action} (hs : s.step a = some s')
    (ha : a.isProducer = true) : s'.consumer = s.consumer ∧ s'.outs = s.outs := by
  rcases step_cases hs with ⟨p, args, -, -, -, rfl⟩ | ⟨p, pc, -, -, -, rfl⟩ | ⟨args, rfl, -, -⟩ |
    ⟨pc, rfl, -, -⟩ | ⟨p, -, rfl⟩
  · exact ⟨rfl, rfl⟩
  · exact ⟨rfl, congrArg (List.map Consumed.out) (produce_observed _ _ _).2⟩
  · cases ha
  · cases ha
  · exact ⟨rfl, rfl⟩

theorem PopPc.Explained.producer {s s' : System} {a : Action} {seen : Option UInt32}
    {reported : List (Option Message)} {pc : PopPc} (hI : Inv s)
    (h : pc.Explained w s.queue seen reported s.outs) (hs : s.step a = some s')
    (ha : a.isProducer = true) :
    pc.Explained w s'.queue seen reported s'.outs := by
  rw [(producer_outs hs ha).2]
  cases pc with
  | done job popped =>
      cases popped with
      | true => trivial
      | false => exact fun e => (h e).producer hI hs ha
  | _ => exact h

/-- So it keeps the invariant. -/
theorem DrainInv.producer (h : DrainInv memory w d) {a : Action} (hs : d.produce a = some d')
    (ha : a.isProducer = true) :
    DrainInv memory w d' := by
  obtain ⟨s, hstep, rfl⟩ := Option.map_eq_some_iff.mp hs
  obtain ⟨hc, ho⟩ := producer_outs hstep ha
  have hI := inv_reach h.reach
  refine ⟨h.reach.trans (.single trivial hstep), ?_, h.texts, h.received, h.skipped⟩
  have hphase := h.phase
  unfold Draining.Phase at hphase ⊢
  cases hl : d.loop with
  | before =>
      simp only [hl] at hphase ⊢
      exact ⟨hc.trans hphase.1, ho.trans hphase.2.1, hphase.2.2⟩
  | call before =>
      simp only [hl] at hphase ⊢
      exact ⟨hc.trans hphase.1, hphase.2.1, ho.trans hphase.2.2.1, hphase.2.2.2⟩
  | inside before =>
      simp only [hl] at hphase ⊢
      obtain ⟨hb, hbuf, pc, hpc, hu, hk, he⟩ := hphase
      exact ⟨hb, hbuf, pc, hc.trans hpc, by rw [ho]; exact hu, hk, he.producer hI hstep ha⟩
  | after before popped =>
      cases popped with
      | true =>
          simp only [hl] at hphase ⊢
          exact ⟨hc.trans hphase.1, hphase.2.1, ho.trans hphase.2.2.1, hphase.2.2.2⟩
      | false =>
          simp only [hl] at hphase ⊢
          obtain ⟨hidle, hb, hout, hbuf, hgive⟩ := hphase
          rw [ho]
          exact ⟨hc.trans hidle, hb, hout, hbuf, fun e => (hgive e).producer hI hstep ha⟩
  | ended =>
      simp only [hl] at hphase ⊢
      exact ⟨hc.trans hphase.1, ho.trans hphase.2.1, hphase.2.2.producer hI hstep ha⟩

/-- The buffer behind a message that was received holds what it held. -/
theorem leftover_received {msgs : List Message} {buffer : ℕ → UInt8} {header : MessageHeader}
    (h : ∀ j, header.length.toNat ≤ j → buffer j = leftover msgs j) :
    buffer = leftover (msgs ++
      [⟨header.type, header.length, readBytes buffer header.length.toNat⟩]) := by
  funext j
  have hlen : (readBytes buffer header.length.toNat).length = header.length.toNat := by
    simp [readBytes]
  rw [leftover_append]
  simp only [hlen]
  split
  next hj => rw [getD_readBytes _ hj]
  next hj => exact h j (Nat.not_lt.mp hj)

/-- The call returns: its answer is in the variables of `main`. -/
theorem DrainInv.returned (h : DrainInv memory w d) {before : UInt64} {job : PopJob} {popped : Bool}
    (hl : d.loop = .inside before) (hc : d.system.consumer = some (.done job popped)) :
    DrainInv memory w { d with
      system := d.system.consume (.done job popped)
      loop := .after before popped
      buffer := job.buffer
      header := job.header } := by
  have hphase := h.phase
  unfold Draining.Phase at hphase
  simp only [hl] at hphase
  obtain ⟨hb, hbuf, pc, hpc, hu, hk, he⟩ := hphase
  rw [hc] at hpc
  obtain rfl := Option.some.inj hpc
  refine ⟨h.reach.trans (.single trivial (step_consume hc)), ?_, h.texts, h.received, h.skipped⟩
  rw [hbuf] at hk
  cases popped with
  | true => exact ⟨rfl, hb, hu, leftover_received hk⟩
  | false => exact ⟨rfl, hb, hu, hk, he⟩

/-- The call goes on. -/
theorem DrainInv.goesOn (h : DrainInv memory w d) {before : UInt64} {pc : PopPc}
    (hl : d.loop = .inside before) (hc : d.system.consumer = some pc)
    (hnd : ∀ job popped, pc ≠ .done job popped) :
    DrainInv memory w { d with system := d.system.consume pc, seen := d.see pc } := by
  have hphase := h.phase
  unfold Draining.Phase at hphase
  simp only [hl] at hphase
  obtain ⟨hb, hbuf, pc', hpc, hu, hk, he⟩ := hphase
  rw [hc] at hpc
  obtain rfl := Option.some.inj hpc
  have hI := inv_reach h.reach
  refine ⟨h.reach.trans (.single trivial (step_consume hc)), ?_, h.texts, h.received, h.skipped⟩
  obtain ⟨next, hn⟩ : ∃ next, (popStep d.system.queue pc).2 = some next := by
    cases pc with
    | done job popped => exact absurd rfl (hnd job popped)
    | loadState job index => simp only [popStep]; split <;> exact ⟨_, rfl⟩
    | copyByte job index hd k => simp only [popStep]; split <;> exact ⟨_, rfl⟩
    | clearByte job index hd k => simp only [popStep]; split <;> exact ⟨_, rfl⟩
    | _ => exact ⟨_, rfl⟩
  unfold Draining.Phase
  simp only [hl]
  exact ⟨hb, hbuf, next, hn, unreported_consume hI hc hu hn, keeps_popStep hk hn,
    explained_consume hI rfl hc hk hu he hn⟩

/-- Two counts below 2^64 that are one apart compare as 64-bit words. -/
theorem ofNat_lt_ofNat {m n : ℕ} (hn : n < 2 ^ 64) (hm : m ≤ n) :
    UInt64.ofNat m < UInt64.ofNat n ↔ m < n := by
  rw [UInt64.lt_iff_toNat_lt, UInt64.toNat_ofNat', UInt64.toNat_ofNat']
  omega

/-- The loop reports what the call has consumed, and nothing else. -/
theorem DrainInv.accounted (h : DrainInv memory w d) {before : UInt64} {popped : Bool}
    (hl : d.loop = .after before popped) (hsmall : d.system.outs.length < 2 ^ 64)
    (hs : d.advance w = some d') : DrainInv memory w d' := by
  have hphase := h.phase
  unfold Draining.Phase at hphase
  cases popped with
  | true =>
      simp only [hl] at hphase
      obtain ⟨hc, -, ho, hbuf⟩ := hphase
      simp only [Draining.advance, hl, if_true] at hs
      obtain rfl := Option.some.inj hs
      have hreceived (text) : (d.reports ++ [Report.received text d.held]).filterMap
          Report.message = d.received ++ [d.held] := by
        rw [List.filterMap_append]
        rfl
      refine ⟨h.reach, ⟨hc, ?_, hbuf.trans (by rw [← hreceived]; rfl)⟩, ?_, ?_, ?_⟩
      · rw [ho]
        simp [Draining.reported, Report.message, Draining.held]
      · show _ = w.prints ((d.reports ++ [Report.received _ d.held]).filterMap Report.message)
        rw [hreceived, w.prints_append, ← hbuf, ← h.texts, List.filterMap_append]
        rfl
      · simp [Draining.reported, Report.message, h.received, List.countP_append]
      · simp [Draining.reported, Report.message, h.skipped, List.countP_append]
  | false =>
      simp only [hl] at hphase
      obtain ⟨hc, hb, ho, hbuf, hgive⟩ := hphase
      have hidx := readIndex_idle h.reach hc
      have hle : d.reported.length ≤ d.system.outs.length := by
        rcases ho with ho | ho <;> simp [ho]
      have hcmp : before < d.system.queue.readIndex ↔ d.reported.length < d.system.outs.length := by
        rw [hb, hidx]
        exact ofNat_lt_ofNat hsmall hle
      simp only [Draining.advance, hl, Bool.false_eq_true, if_false] at hs
      split at hs
      · rename_i hlt
        obtain rfl := Option.some.inj hs
        have ho' : d.system.outs = d.reported ++ [none] :=
          ho.resolve_left fun e => by rw [hcmp, e] at hlt; exact Nat.lt_irrefl _ hlt
        have hreceived : (d.reports ++ [Report.skipped]).filterMap Report.message = d.received := by
          rw [List.filterMap_append]
          exact List.append_nil _
        refine ⟨h.reach, ⟨hc, ?_, hbuf.trans (by rw [← hreceived]; rfl)⟩, ?_, ?_, ?_⟩
        · rw [ho']
          simp [Draining.reported, Report.message]
        · show _ = w.prints ((d.reports ++ [Report.skipped]).filterMap Report.message)
          rw [hreceived, ← h.texts, List.filterMap_append]
          exact List.append_nil _
        · simp [Draining.reported, Report.message, h.received, List.countP_append]
        · simp [Draining.reported, Report.message, h.skipped, List.countP_append]
      · rename_i hlt
        obtain rfl := Option.some.inj hs
        have ho' : d.system.outs = d.reported :=
          ho.resolve_right fun e => hlt (hcmp.mpr (by rw [e]; simp))
        exact ⟨h.reach, ⟨hc, ho', hgive ho'⟩, h.texts, h.received, h.skipped⟩

end Steps

end HseMultithreading.Hw4
