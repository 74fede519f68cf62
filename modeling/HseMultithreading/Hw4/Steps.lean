/-
  File:      HseMultithreading/Hw4/Steps.lean
  Subject:   THE STEP MACHINE OF THE hw4 QUEUE: any number of producers inside `try_push_message`
             and one consumer inside `try_pop_message`, one access to shared memory a step.

  * `PushPc`, `pushStep` -- where a push stands and its next step: the `fetch_add`, the
    `compare_exchange`, the two header stores, one payload byte at a time, the READY store. The
    step after the last byte IS the READY store (`copyByte` with nothing left to copy).
  * `PopPc`, `popStep` -- the same for a pop: both index accesses, the state load, the two header
    loads, one byte at a time out of the slot, the two header clears, one byte cleared at a time,
    the EMPTY store, the index store. `PopEffect`, `PopNext` -- what a step of it can do.
  * `System`, `System.step` -- the shared queue with all parties. A party is idle (`none`) or
    inside a call. `halt` stops a producer for ever, wherever it stands.
  * `History` -- what an observer writes down. No code step reads it: `pushStep` and `popStep`
    see the queue and their own locals only.

  Atomics are sequentially consistent: a step reads and writes the one queue there is.
-/
import HseMultithreading.Lib.Run
import HseMultithreading.Hw4.Calls

namespace HseMultithreading.Hw4

open StepSystem

/-! ## 1. One step of a push -/

/-- Where a `try_push_message` call stands: what it does NEXT. -/
inductive PushPc where
  | fetchAdd (job : PushJob)
  | compareExchange (job : PushJob) (index : UInt64)
  | putType (job : PushJob) (i : Fin queueCapacity)
  | putLength (job : PushJob) (i : Fin queueCapacity)
  | copyByte (job : PushJob) (i : Fin queueCapacity) (k : ℕ)
  | done (pushed : Bool)

/-- One byte of a payload replaced. -/
def Payload.put (payload : Payload) (k : Fin maxPayloadSize) (b : UInt8) : Payload :=
  Function.update payload k b

/-- One step of a push; `none` is the return to the caller. -/
def pushStep (q : SharedQueueLayout) : PushPc → SharedQueueLayout × Option PushPc
  | .fetchAdd job =>
    ({ q with writeIndex := q.writeIndex + 1 }, some (.compareExchange job q.writeIndex))
  | .compareExchange job index =>
    let slot := q.slots (getSlot index)
    if slot.state = SlotState.empty.code then
      (q.setSlot (getSlot index) { slot with state := SlotState.writing.code },
        some (.putType job (getSlot index)))
    else (q, some (.done false))
  | .putType job i =>
    let slot := q.slots i
    (q.setSlot i { slot with header := ⟨job.type, slot.header.length⟩ }, some (.putLength job i))
  | .putLength job i =>
    let slot := q.slots i
    (q.setSlot i { slot with header := ⟨slot.header.type, UInt32.ofNat job.length⟩ },
      some (.copyByte job i 0))
  | .copyByte job i k =>
    let slot := q.slots i
    if h : k < job.length then
      let payload := slot.payload.put ⟨k, Nat.lt_of_lt_of_le h job.fits⟩ (job.data k)
      (q.setSlot i { slot with payload := payload }, some (.copyByte job i (k + 1)))
    else (q.setSlot i { slot with state := SlotState.ready.code }, some (.done true))
  | .done _ => (q, none)

/-- Entering `try_push_message`: the guards touch no shared memory. -/
def PushArgs.enter (a : PushArgs) : PushPc :=
  match a.guard with
  | none => .done false
  | some job => .fetchAdd job

/-- The slot a push has claimed and not yet published. -/
def PushPc.owns : PushPc → Option (Fin queueCapacity)
  | .putType _ i | .putLength _ i | .copyByte _ i _ => some i
  | .fetchAdd _ | .compareExchange _ _ | .done _ => none

/-- The slot the next step of a push can touch. -/
def PushPc.touches : PushPc → Option (Fin queueCapacity)
  | .compareExchange _ index => some (getSlot index)
  | .putType _ i | .putLength _ i | .copyByte _ i _ => some i
  | .fetchAdd _ | .done _ => none

theorem PushPc.touches_of_owns {pc : PushPc} {i : Fin queueCapacity} (h : pc.owns = some i) :
    pc.touches = some i := by
  cases pc <;> first | exact h | cases h

/-- A push step changes the slot it touches and no other. -/
theorem pushStep_slots (q : SharedQueueLayout) {pc : PushPc} {i : Fin queueCapacity}
    (h : pc.touches ≠ some i) : (pushStep q pc).1.slots i = q.slots i := by
  have hne : ∀ j, pc.touches = some j → i ≠ j := fun j hj e => h (e ▸ hj)
  cases pc with
  | fetchAdd job => rfl
  | compareExchange job index =>
      simp only [pushStep]
      split
      · exact setSlot_slots_of_ne _ _ _ (hne _ rfl)
      · rfl
  | putType job j => exact setSlot_slots_of_ne _ _ _ (hne _ rfl)
  | putLength job j => exact setSlot_slots_of_ne _ _ _ (hne _ rfl)
  | copyByte job j k =>
      simp only [pushStep]
      split <;> exact setSlot_slots_of_ne _ _ _ (hne _ rfl)
  | done pushed => rfl

/-- A push owns a slot after a step only if the step touched it. -/
theorem pushStep_owns {q : SharedQueueLayout} {pc pc' : PushPc} {i : Fin queueCapacity}
    (h : (pushStep q pc).2 = some pc') (hi : pc'.owns = some i) : pc.touches = some i := by
  cases pc with
  | fetchAdd job => obtain rfl := Option.some.inj h; cases hi
  | compareExchange job index =>
      simp only [pushStep] at h
      split at h <;> obtain rfl := Option.some.inj h
      · exact hi
      · cases hi
  | putType job j => obtain rfl := Option.some.inj h; exact hi
  | putLength job j => obtain rfl := Option.some.inj h; exact hi
  | copyByte job j k =>
      simp only [pushStep] at h
      split at h <;> obtain rfl := Option.some.inj h
      · exact hi
      · cases hi
  | done pushed => cases h

/-! ## 2. One step of a pop -/

/-- A header whose length has passed the check against `MAX_PAYLOAD_SIZE`. -/
structure FitHeader where
  header : MessageHeader
  fits : header.length.toNat ≤ maxPayloadSize

/-- Where a `try_pop_message` call stands: what it does NEXT. The job carries the caller's
    memory behind the two out pointers. -/
inductive PopPc where
  | loadIndex (job : PopJob)
  | loadState (job : PopJob) (index : UInt64)
  | loadType (job : PopJob) (index : UInt64)
  | loadLength (job : PopJob) (index : UInt64) (type : UInt32)
  | copyByte (job : PopJob) (index : UInt64) (h : FitHeader) (k : ℕ)
  | clearType (job : PopJob) (index : UInt64) (h : FitHeader)
  | clearLength (job : PopJob) (index : UInt64) (h : FitHeader)
  | clearByte (job : PopJob) (index : UInt64) (h : FitHeader) (k : ℕ)
  | storeIndex (job : PopJob) (index : UInt64) (h : FitHeader)
  | done (job : PopJob) (popped : Bool)

/-- One byte of the caller's buffer replaced. -/
def PopJob.put (job : PopJob) (k : ℕ) (b : UInt8) : PopJob :=
  { job with buffer := Function.update job.buffer k b }

/-- Where a pop goes on with the header it has loaded. -/
def PopPc.onHeader (job : PopJob) (index : UInt64) (type length : UInt32) : PopPc :=
  if h : length.toNat ≤ maxPayloadSize then
    if job.size < length.toNat then .done job false
    else if type = job.expected then .copyByte job index ⟨⟨type, length⟩, h⟩ 0
    else .clearType job index ⟨⟨type, length⟩, h⟩
  else .done job false

/-- The three ways it can go on. -/
theorem PopPc.onHeader_cases {motive : PopPc → Prop} {job : PopJob} {index : UInt64}
    {type length : UInt32} (refuses : motive (.done job false))
    (copies : ∀ h : FitHeader, h.header = ⟨type, length⟩ → type = job.expected →
      motive (.copyByte job index h 0))
    (discards : ∀ h : FitHeader, h.header = ⟨type, length⟩ → type ≠ job.expected →
      motive (.clearType job index h)) : motive (.onHeader job index type length) := by
  unfold PopPc.onHeader
  split
  next hfit =>
    split
    · exact refuses
    · split
      next he => exact copies ⟨⟨type, length⟩, hfit⟩ rfl he
      next he => exact discards ⟨⟨type, length⟩, hfit⟩ rfl he
  next => exact refuses

/-- One step of a pop; `none` is the return to the caller. -/
def popStep (q : SharedQueueLayout) : PopPc → SharedQueueLayout × Option PopPc
  | .loadIndex job => (q, some (.loadState job q.readIndex))
  | .loadState job index =>
    if (q.slots (getSlot index)).state = SlotState.ready.code then
      (q, some (.loadType job index))
    else (q, some (.done job false))
  | .loadType job index => (q, some (.loadLength job index (q.slots (getSlot index)).header.type))
  | .loadLength job index type =>
    (q, some (.onHeader job index type (q.slots (getSlot index)).header.length))
  | .copyByte job index h k =>
    if hk : k < h.header.length.toNat then
      let b := (q.slots (getSlot index)).payload ⟨k, Nat.lt_of_lt_of_le hk h.fits⟩
      (q, some (.copyByte (job.put k b) index h (k + 1)))
    else (q, some (.clearType { job with header := h.header } index h))
  | .clearType job index h =>
    let slot := q.slots (getSlot index)
    (q.setSlot (getSlot index)
      { slot with header := ⟨MessageType.unknown.code, slot.header.length⟩ },
      some (.clearLength job index h))
  | .clearLength job index h =>
    let slot := q.slots (getSlot index)
    (q.setSlot (getSlot index) { slot with header := ⟨slot.header.type, 0⟩ },
      some (.clearByte job index h 0))
  | .clearByte job index h k =>
    let slot := q.slots (getSlot index)
    if hk : k < maxPayloadSize then
      (q.setSlot (getSlot index) { slot with payload := slot.payload.put ⟨k, hk⟩ 0 },
        some (.clearByte job index h (k + 1)))
    else
      (q.setSlot (getSlot index) { slot with state := SlotState.empty.code },
        some (.storeIndex job index h))
  | .storeIndex job index h =>
    ({ q with readIndex := index + 1 }, some (.done job (h.header.type = job.expected)))
  | .done _ _ => (q, none)

/-- Entering `try_pop_message`; a call with a null pointer returns `false` with the caller's
    memory as it was. -/
def PopArgs.enter (a : PopArgs) : PopPc :=
  match a.guard with
  | none =>
    .done ⟨a.expectedType.code, 0, a.outBuffer.getD fun _ => 0, a.outHeader.getD ⟨0, 0⟩⟩ false
  | some job => .loadIndex job

/-- The slot a pop has observed READY and not yet released. -/
def PopPc.holds : PopPc → Option (Fin queueCapacity)
  | .loadType _ index | .loadLength _ index _ | .copyByte _ index _ _ | .clearType _ index _
  | .clearLength _ index _ | .clearByte _ index _ _ => some (getSlot index)
  | .loadIndex _ | .loadState _ _ | .storeIndex _ _ _ | .done _ _ => none

/-- The index a pop has loaded and not yet stored back. -/
def PopPc.cursor : PopPc → Option UInt64
  | .loadState _ index | .loadType _ index | .loadLength _ index _ | .copyByte _ index _ _
  | .clearType _ index _ | .clearLength _ index _ | .clearByte _ index _ _
  | .storeIndex _ index _ => some index
  | .loadIndex _ | .done _ _ => none

theorem PopPc.cursor_of_holds {pc : PopPc} {i : Fin queueCapacity} (h : pc.holds = some i) :
    pc.cursor.map getSlot = some i := by
  cases pc <;> first | exact h | cases h

/-- **What a pop step does to the queue**: nothing; or it clears a part of the slot it holds, or
    gives this slot back; or it stores the index. -/
inductive PopEffect (q : SharedQueueLayout) : PopPc → SharedQueueLayout → Prop where
  | reads (pc : PopPc) : PopEffect q pc q
  | clears (pc : PopPc) (i : Fin queueCapacity) (slot : MessageSlot) (hi : pc.holds = some i)
      (hstate : slot.state = (q.slots i).state) : PopEffect q pc (q.setSlot i slot)
  | releases (job : PopJob) (index : UInt64) (h : FitHeader) (k : ℕ) (hk : ¬ k < maxPayloadSize) :
      PopEffect q (.clearByte job index h k) (q.setSlot (getSlot index)
        { q.slots (getSlot index) with state := SlotState.empty.code })
  | stores (job : PopJob) (index : UInt64) (h : FitHeader) :
      PopEffect q (.storeIndex job index h) { q with readIndex := index + 1 }

/-- **Where a pop goes**: it loads the index, gives up, goes on with the slot at its index, and
    after the slot is given back it stores the index and returns. -/
inductive PopNext (q : SharedQueueLayout) : PopPc → PopPc → Prop where
  | loads (job : PopJob) : PopNext q (.loadIndex job) (.loadState job q.readIndex)
  | refuses (pc : PopPc) (job : PopJob) : PopNext q pc (.done job false)
  | goes (pc pc' : PopPc) (i : Fin queueCapacity) (hi : pc'.holds = some i)
      (hc : pc'.cursor = pc.cursor) : PopNext q pc pc'
  | releases (job : PopJob) (index : UInt64) (h : FitHeader) (k : ℕ) (hk : ¬ k < maxPayloadSize) :
      PopNext q (.clearByte job index h k) (.storeIndex job index h)
  | returns (job : PopJob) (index : UInt64) (h : FitHeader) :
      PopNext q (.storeIndex job index h) (.done job (h.header.type = job.expected))

theorem popStep_effect (q : SharedQueueLayout) (pc : PopPc) : PopEffect q pc (popStep q pc).1 := by
  cases pc with
  | loadState job index => simp only [popStep]; split <;> exact .reads _
  | copyByte job index h k => simp only [popStep]; split <;> exact .reads _
  | clearType job index h | clearLength job index h => exact .clears _ _ _ rfl rfl
  | clearByte job index h k =>
      simp only [popStep]
      split
      next => exact .clears _ _ _ rfl rfl
      next hk => exact .releases job index h k hk
  | storeIndex job index h => exact .stores job index h
  | _ => exact .reads _

theorem popStep_next {q : SharedQueueLayout} {pc pc' : PopPc} (h : (popStep q pc).2 = some pc') :
    PopNext q pc pc' := by
  cases pc with
  | loadIndex job => cases h; exact .loads job
  | loadState job index =>
      simp only [popStep] at h
      split at h <;> cases h
      · exact .goes _ _ _ rfl rfl
      · exact .refuses _ job
  | loadLength job index type =>
      cases h
      exact PopPc.onHeader_cases (.refuses _ job) (fun _ _ _ => .goes _ _ _ rfl rfl)
        fun _ _ _ => .goes _ _ _ rfl rfl
  | copyByte job index hd k =>
      simp only [popStep] at h
      split at h <;> cases h <;> exact .goes _ _ _ rfl rfl
  | loadType job index | clearType job index hd | clearLength job index hd =>
      cases h
      exact .goes _ _ _ rfl rfl
  | clearByte job index hd k =>
      simp only [popStep] at h
      split at h <;> cases h
      next => exact .goes _ _ _ rfl rfl
      next hk => exact .releases job index hd k hk
  | storeIndex job index hd => cases h; exact .returns job index hd
  | done job popped => cases h

section Effects

variable {q q' : SharedQueueLayout} {pc pc' : PopPc} {i : Fin queueCapacity}

/-- A pop step changes the slot at its index and no other. -/
theorem PopEffect.slots (h : PopEffect q pc q') (hne : pc.cursor.map getSlot ≠ some i) :
    q'.slots i = q.slots i := by
  cases h with
  | reads => rfl
  | clears _ j slot hj _ =>
      exact setSlot_slots_of_ne _ _ _ fun e => hne (e ▸ PopPc.cursor_of_holds hj)
  | releases job index hd k _ => exact setSlot_slots_of_ne _ _ _ fun e => hne (e ▸ rfl)
  | stores job index hd => rfl

/-- Only the release changes the state of a slot. -/
theorem PopEffect.state (h : PopEffect q pc q')
    (hnr : ∀ job index hd k, pc = .clearByte job index hd k → k < maxPayloadSize)
    (i : Fin queueCapacity) : (q'.slots i).state = (q.slots i).state := by
  cases h with
  | reads => rfl
  | clears _ j slot _ hstate =>
      by_cases e : i = j
      · rw [e, setSlot_slots_self, hstate]
      · rw [setSlot_slots_of_ne _ _ _ e]
  | releases job index hd k hk => exact absurd (hnr job index hd k rfl) hk
  | stores job index hd => rfl

theorem PopEffect.writeIndex (h : PopEffect q pc q') : q'.writeIndex = q.writeIndex := by
  cases h <;> rfl

/-- A pop stores no index but at its end. -/
theorem PopEffect.readIndex (h : PopEffect q pc q')
    (hne : ∀ job index hd, pc ≠ .storeIndex job index hd) : q'.readIndex = q.readIndex := by
  cases h with
  | stores job index hd => exact absurd rfl (hne job index hd)
  | _ => rfl

/-- A pop holds a slot after a step only if it was the slot at its index. -/
theorem PopNext.holds (h : PopNext q pc pc') (hi : pc'.holds = some i) :
    pc.cursor.map getSlot = some i := by
  cases h with
  | goes _ _ _ _ hc => rw [← hc]; exact PopPc.cursor_of_holds hi
  | _ => cases hi

/-- The index a pop has after a step is the one it had, or it was loaded just now. -/
theorem PopNext.cursor (h : PopNext q pc pc') {index : UInt64} (hc : pc'.cursor = some index)
    (hr : ∀ index, pc.cursor = some index → q.readIndex = index) : q.readIndex = index := by
  cases h with
  | loads => exact Option.some.inj hc
  | goes _ _ _ _ hsame => exact hr index (hsame ▸ hc)
  | releases => exact hr index hc
  | _ => cases hc

/-- The step that goes on to the store of the index is the EMPTY store. -/
theorem PopNext.release {job : PopJob} {index : UInt64} {hd : FitHeader}
    (h : PopNext q pc (.storeIndex job index hd)) :
    ∃ k, pc = .clearByte job index hd k ∧ ¬ k < maxPayloadSize := by
  cases h with
  | goes _ _ _ hi _ => cases hi
  | releases _ _ _ k hk => exact ⟨k, rfl, hk⟩

theorem popStep_slots (q : SharedQueueLayout) (h : pc.cursor.map getSlot ≠ some i) :
    (popStep q pc).1.slots i = q.slots i :=
  (popStep_effect q pc).slots h

end Effects

/-- The message in the caller's memory. -/
def PopJob.delivered (job : PopJob) : Message :=
  ⟨job.header.type, job.header.length, readBytes job.buffer job.header.length.toNat⟩

/-! ## 3. What an observer writes down -/

/-- A push call: the producer and the number of the call among its own, counted from one. -/
structure Tag where
  producer : ℕ
  call : ℕ
  deriving DecidableEq, Repr

/-- A message with the call that sent it and the ticket it went under (tickets are counted, so
    they do not wrap). -/
structure Entry where
  tag : Tag
  ticket : ℕ
  message : Message
  deriving DecidableEq, Repr

/-- A message taken out of a slot: its content when the consumer observed READY, and what was
    handed to the caller when it was delivered (`none` for a discarded message). -/
structure Consumed where
  entry : Entry
  out : Option Message
  deriving DecidableEq, Repr

structure History where
  calls : ℕ → ℕ
  tickets : ℕ
  ticket : ℕ → ℕ
  owner : Fin queueCapacity → Entry
  published : List Entry
  returned : List Tag
  observed : Message
  consumed : List Consumed

def History.start : History :=
  ⟨fun _ => 0, 0, fun _ => 0, fun _ => ⟨⟨0, 0⟩, 0, ⟨0, 0, []⟩⟩, [], [], ⟨0, 0, []⟩, []⟩

/-- The entry of producer `p`'s current call. -/
def History.entry (h : History) (p : ℕ) (job : PushJob) : Entry :=
  ⟨⟨p, h.calls p⟩, h.ticket p, job.message⟩

/-- What is written down when producer `p` takes its next step. -/
def History.produce (h : History) (p : ℕ) : PushPc → History
  | .fetchAdd _ =>
    { h with tickets := h.tickets + 1, ticket := Function.update h.ticket p h.tickets }
  | .copyByte job i k =>
    if k < job.length then h
    else
      { h with
        owner := Function.update h.owner i (h.entry p job)
        published := h.published ++ [h.entry p job] }
  | .done true => { h with returned := h.returned ++ [⟨p, h.calls p⟩] }
  | _ => h

/-- What is written down when the consumer takes its next step on queue `q`. -/
def History.consume (h : History) (q : SharedQueueLayout) : PopPc → History
  | .loadState _ index =>
    if (q.slots (getSlot index)).state = SlotState.ready.code then
      { h with observed := (q.slots (getSlot index)).message }
    else h
  | .clearByte job index hd k =>
    if k < maxPayloadSize then h
    else
      { h with
        consumed := h.consumed ++
          [⟨{ h.owner (getSlot index) with message := h.observed },
            if hd.header.type = job.expected then some job.delivered else none⟩] }
  | _ => h

/-! ## 4. The system -/

structure System where
  queue : SharedQueueLayout
  producers : ℕ → Option PushPc
  halted : ℕ → Bool
  consumer : Option PopPc
  history : History

/-- The system on a queue that `init_queue` has just set up. -/
def System.start (memory : SharedQueueLayout) : System :=
  ⟨initQueue memory, fun _ => none, fun _ => false, none, .start⟩

inductive Action where
  | push (p : ℕ) (a : PushArgs)
  | produce (p : ℕ)
  | pop (a : PopArgs)
  | consume
  | halt (p : ℕ)

/-- Producer `p` calls `try_push_message`. -/
def System.callPush (s : System) (p : ℕ) (a : PushArgs) : System :=
  { s with
    producers := Function.update s.producers p (some a.enter)
    history := { s.history with
      calls := Function.update s.history.calls p (s.history.calls p + 1) } }

/-- Producer `p`, standing at `pc`, takes its next step. -/
def System.produce (s : System) (p : ℕ) (pc : PushPc) : System :=
  { s with
    queue := (pushStep s.queue pc).1
    producers := Function.update s.producers p (pushStep s.queue pc).2
    history := s.history.produce p pc }

/-- The consumer calls `try_pop_message`. -/
def System.callPop (s : System) (a : PopArgs) : System := { s with consumer := some a.enter }

/-- The consumer, standing at `pc`, takes its next step. -/
def System.consume (s : System) (pc : PopPc) : System :=
  { s with
    queue := (popStep s.queue pc).1
    consumer := (popStep s.queue pc).2
    history := s.history.consume s.queue pc }

/-- Producer `p` is killed. -/
def System.halt (s : System) (p : ℕ) : System :=
  { s with halted := Function.update s.halted p true }

/-- **One step of the system.** -/
def System.step (s : System) : Action → Option System
  | .push p a =>
    if s.halted p then none
    else match s.producers p with
      | none => some (s.callPush p a)
      | some _ => none
  | .produce p =>
    if s.halted p then none
    else (s.producers p).map (s.produce p)
  | .pop a =>
    match s.consumer with
    | none => some (s.callPop a)
    | some _ => none
  | .consume => s.consumer.map s.consume
  | .halt p => some (s.halt p)

/-- **What a step can be**, guards included. -/
theorem step_cases {s s' : System} {a : Action} (h : s.step a = some s') :
    (∃ p args, a = .push p args ∧ s.halted p = false ∧ s.producers p = none ∧
      s' = s.callPush p args) ∨
    (∃ p pc, a = .produce p ∧ s.halted p = false ∧ s.producers p = some pc ∧
      s' = s.produce p pc) ∨
    (∃ args, a = .pop args ∧ s.consumer = none ∧ s' = s.callPop args) ∨
    (∃ pc, a = .consume ∧ s.consumer = some pc ∧ s' = s.consume pc) ∨
    (∃ p, a = .halt p ∧ s' = s.halt p) := by
  cases a with
  | push p args =>
      left
      simp only [System.step] at h
      split at h
      · cases h
      · rename_i hh
        split at h
        · rename_i hp
          exact ⟨p, args, rfl, by simpa using hh, hp, (Option.some.inj h).symm⟩
        · cases h
  | produce p =>
      right; left
      simp only [System.step] at h
      split at h
      · cases h
      · rename_i hh
        obtain ⟨pc, hp, e⟩ := Option.map_eq_some_iff.mp h
        exact ⟨p, pc, rfl, by simpa using hh, hp, e.symm⟩
  | pop args =>
      right; right; left
      simp only [System.step] at h
      split at h
      · rename_i hc
        exact ⟨args, rfl, hc, (Option.some.inj h).symm⟩
      · cases h
  | consume =>
      right; right; right; left
      obtain ⟨pc, hc, e⟩ := Option.map_eq_some_iff.mp h
      exact ⟨pc, rfl, hc, e.symm⟩
  | halt p => exact .inr (.inr (.inr (.inr ⟨p, rfl, (Option.some.inj h).symm⟩)))

end HseMultithreading.Hw4
