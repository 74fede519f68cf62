/-
  File:      HseMultithreading/Hw4/Recovery.lean
  Subject:   A CONSUMER THAT IS KILLED AND STARTED AGAIN (`try_pop_message` in `hw4/ipc_queue.cpp`),
             at any step of a call, next to any number of producers.

  A pop takes its message apart while the slot is still READY. A consumer that dies in between
  leaves a slot with a type of UNKNOWN, at `read_index`, and the next consumer meets it first.

  * `Restarting` -- the step machine with one action more: the consumer is gone, and a new one is
    idle. Beside it an observer keeps what callers have got back with `true`.
  * `Mirrors` -- the machine runs beside one whose consumer was never killed inside a slot: there
    the half-cleared slot still holds its message (`Inv.undo`), and the next pop to release it
    discards that message (`Inv.discard`).
  * **`restart_loses_at_most_one`** -- for a consumer that asks for a type other than UNKNOWN, what
    callers get are accepted messages, whole and once each; those that are neither handed over nor
    of another type nor still in the queue are no more than the restarts.
-/
import Mathlib.Tactic.Abel
import HseMultithreading.Hw4.Consumer
import HseMultithreading.Hw4.Delivery

namespace HseMultithreading.Hw4

open StepSystem Bag

/-! ## 1. The machine -/

/-- What the caller of a pop has in its memory when the pop returns `true`. -/
def PopPc.handing : PopPc → List Message
  | .done job true => [job.delivered]
  | _ => []

/-- The step machine, how often the consumer was started again, and what its callers have got. -/
structure Restarting where
  system : System
  restarts : ℕ
  received : List Message

def Restarting.start (memory : SharedQueueLayout) : Restarting := ⟨.start memory, 0, []⟩

inductive RestartAction where
  | run (a : Action)
  | restart

/-- What this step of the machine hands to the caller of a pop. -/
def System.hands (s : System) : Action → List Message
  | .consume => (s.consumer.map PopPc.handing).getD []
  | _ => []

def Restarting.step (r : Restarting) : RestartAction → Option Restarting
  | .run a => (r.system.step a).map fun s =>
    { r with system := s, received := r.received ++ r.system.hands a }
  | .restart => some { r with
    system := { r.system with consumer := none }
    restarts := r.restarts + 1 }

/-- Every pop asks for the type `T`. -/
def RestartAction.asks (T : MessageType) : RestartAction → Bool
  | .run (.pop a) => a.expectedType.code == T.code
  | _ => true

/-- The message a pop has taken out of its slot and is about to return with `true`. -/
def PopPc.returning : PopPc → Multiset Message
  | .storeIndex job _ hd => if hd.header.type = job.expected then {job.delivered} else 0
  | .done job true => {job.delivered}
  | _ => 0

def System.returning (s : System) : Multiset Message := (s.consumer.map PopPc.returning).getD 0

/-- The type a pop asks for. -/
def PopPc.expected : PopPc → UInt32
  | .loadIndex job | .loadState job _ | .loadType job _ | .loadLength job _ _
  | .copyByte job _ _ _ | .clearType job _ _ | .clearLength job _ _ | .clearByte job _ _ _
  | .storeIndex job _ _ | .done job _ => job.expected

/-! ## 2. A machine whose consumer lets go -/

section Ghost

variable {g : System} {i : Fin queueCapacity}

/-- A consumer that has cleared nothing of its slot can be forgotten: the slot is full again. -/
theorem Inv.abandon (h : Inv g) (hclears : ∀ pc, g.consumer = some pc → pc.clears = none) :
    Inv { g with consumer := none } where
  phase i := by
    by_cases hheld : g.Held i
    · obtain ⟨pc, hpc, hi⟩ := hheld
      obtain ⟨sent, hd, hm, -, hp⟩ := (h.phase i).held hpc hi
      have hs := hd.intact hi (by rw [hclears pc hpc]; exact fun e => by cases e)
      exact .full sent hs hm hp fun ⟨_, e, _⟩ => by cases e
    · refine (h.phase i).frame rfl rfl (fun _ _ _ => Iff.rfl) (fun pc hi => ?_) fun _ => rfl
      exact iff_of_false (fun e => by cases e) fun hpc => hheld ⟨pc, hpc, hi⟩
  cursor _ _ e := by cases e
  bag := h.bag
  faithful := h.faithful
  handed _ e := by cases e

/-- What a consumer leaves behind that dies inside a clear. -/
def MessageSlot.Scarred (slot : MessageSlot) : Prop :=
  slot.state = SlotState.ready.code ∧ slot.header.type = MessageType.unknown.code

theorem PopPc.Drains.scarred {sent : PushJob} {pc : PopPc} {slot : MessageSlot}
    (h : pc.Drains sent slot) (hi : pc.clears = some i) : slot.Scarred := by
  cases pc with
  | clearLength job index hd => rw [h.2]; exact ⟨rfl, rfl⟩
  | clearByte job index hd k => rw [h.2.2]; exact ⟨rfl, rfl⟩
  | _ => cases hi

/-- **A clear that is undone**: the slot at `read_index` holds its message again, and the consumer
    is forgotten. -/
theorem Inv.undo (h : Inv g) {pc : PopPc} (hpc : g.consumer = some pc) (hi : pc.clears = some i) :
    ∃ sent : PushJob, (g.queue.slots i).Scarred ∧ i = getSlot g.queue.readIndex ∧
      Inv { g with queue := g.queue.setSlot i (sent.fill .cleared), consumer := none } := by
  have hholds : pc.holds = some i := by cases pc <;> first | exact hi | cases hi
  have hindex : i = getSlot g.queue.readIndex := by
    obtain ⟨index, hcursor, hslot⟩ := Option.map_eq_some_iff.mp (PopPc.cursor_of_holds hholds)
    rw [h.cursor pc index hpc hcursor, hslot]
  obtain ⟨sent, hd, hm, -, hp⟩ := (h.phase i).held hpc hholds
  have hother : ∀ j, j ≠ i → ¬ g.Held j := by
    rintro j hj ⟨pc', hpc', hj'⟩
    obtain rfl := Option.some.inj (hpc.symm.trans hpc')
    exact hj (Option.some.inj (hj'.symm.trans hholds))
  refine ⟨sent, hd.scarred hi, hindex, ?_, (fun _ _ e => by cases e), ?_, h.faithful,
    fun _ e => by cases e⟩
  · intro j
    by_cases e : j = i
    · subst e
      exact .full sent (setSlot_slots_self _ _ _) hm hp fun ⟨_, e, _⟩ => by cases e
    · refine (h.phase j).frame (setSlot_slots_of_ne _ _ _ e) rfl (fun _ _ _ => Iff.rfl)
        (fun pc' hj => ?_) fun _ => rfl
      exact iff_of_false (fun e => by cases e) fun hpc' => hother j e ⟨pc', hpc', hj⟩
  · -- the slot was READY and is READY
    have hpending : ({ g with
        queue := g.queue.setSlot i (sent.fill .cleared), consumer := none } : System).pending =
        g.pending := by
      funext j
      by_cases e : j = i
      · subst e
        simp only [System.pending, setSlot_slots_self, hd.state, PushJob.fill]
      · simp only [System.pending, setSlot_slots_of_ne _ _ _ e]
    rw [hpending]
    exact h.bag

/-- **A message that is discarded at one stroke**, by a consumer that is then about to store the
    index. -/
theorem Inv.discard (h : Inv g) (hc : g.consumer = none) (hi : i = getSlot g.queue.readIndex)
    (hr : (g.queue.slots i).state = SlotState.ready.code) {job : PopJob} {hd : FitHeader}
    (htype : hd.header.type ≠ job.expected) :
    Inv { g with
      queue := g.queue.setSlot i .cleared
      consumer := some (.storeIndex job g.queue.readIndex hd)
      history := { g.history with
        consumed := g.history.consumed ++ [⟨g.history.owner i, none⟩] } } := by
  have hfree : ¬ g.Held i := fun ⟨_, e, _⟩ => by rw [hc] at e; cases e
  obtain ⟨sent, hs, hm, hp⟩ := (h.phase i).of_ready hr hfree
  refine ⟨fun j => ?_, fun pc index e hcursor => ?_, ?_, fun c hmem m hm' => ?_, fun pc e => ?_⟩
  · by_cases e : j = i
    · subst e
      refine .free (setSlot_slots_self _ _ _) hp ?_
      rintro ⟨pc, e, hj⟩
      obtain rfl := Option.some.inj e
      cases hj
    · refine (h.phase j).frame (setSlot_slots_of_ne _ _ _ e) rfl (fun _ _ _ => Iff.rfl)
        (fun pc hj => ?_) fun _ => rfl
      refine iff_of_false (fun e => ?_) fun e => by rw [hc] at e; cases e
      obtain rfl := Option.some.inj e
      cases hj
  · obtain rfl := Option.some.inj e
    exact Option.some.inj hcursor
  · have hbag : bagOf g.pending = bagOf ({ g with
        queue := g.queue.setSlot i .cleared
        consumer := some (.storeIndex job g.queue.readIndex hd)
        history := { g.history with
          consumed := g.history.consumed ++ [⟨g.history.owner i, none⟩] } } : System).pending +
        {g.history.owner i} := by
      refine bagOf_fill (i := i) (fun j hj => ?_) ?_ (if_pos hr)
      · simp only [System.pending, setSlot_slots_of_ne _ _ _ hj]
      · simp [System.pending, MessageSlot.cleared]
    have hold := h.bag
    rw [hbag] at hold
    rw [hold]
    simp only [List.map_append, List.map_singleton, ← Multiset.coe_add, Multiset.coe_singleton]
    rw [add_assoc, add_comm {g.history.owner i}]
  · rcases List.mem_append.mp hmem with hmem | hmem
    · exact h.faithful c hmem m hm'
    · obtain rfl := List.mem_singleton.mp hmem
      cases hm'
  · obtain rfl := Option.some.inj e
    exact fun hty => absurd hty htype

end Ghost

/-! ## 3. Steps on both sides -/

/-- What producers and slots have in the records; the rest is the consumer's. -/
structure SameRecords (h g : History) : Prop where
  calls : h.calls = g.calls
  tickets : h.tickets = g.tickets
  ticket : h.ticket = g.ticket
  owner : h.owner = g.owner
  published : h.published = g.published

section Steps

variable {q : SharedQueueLayout} {h g : History} {i : Fin queueCapacity} {slot : MessageSlot}

theorem SameRecords.produce (hr : SameRecords h g) (p : ℕ) (pc : PushPc) :
    SameRecords (h.produce p pc) (g.produce p pc) := by
  have hentry : ∀ job, h.entry p job = g.entry p job := fun job => by
    unfold History.entry
    rw [hr.calls, hr.ticket]
  cases pc with
  | fetchAdd job =>
      refine ⟨hr.calls, ?_, ?_, hr.owner, hr.published⟩
      · show h.tickets + 1 = g.tickets + 1
        rw [hr.tickets]
      · show Function.update h.ticket p h.tickets = Function.update g.ticket p g.tickets
        rw [hr.ticket, hr.tickets]
  | copyByte job i k =>
      by_cases hk : k < job.length
      · rw [produce_copy hk, produce_copy hk]
        exact hr
      · rw [produce_publish hk, produce_publish hk]
        refine ⟨hr.calls, hr.tickets, hr.ticket, ?_, ?_⟩
        · show Function.update h.owner i _ = Function.update g.owner i _
          rw [hr.owner, hentry]
        · show h.published ++ _ = g.published ++ _
          rw [hr.published, hentry]
  | done pushed =>
      cases pushed with
      | true => exact ⟨hr.calls, hr.tickets, hr.ticket, hr.owner, hr.published⟩
      | false => exact hr
  | compareExchange job index => exact hr
  | putType job i => exact hr
  | putLength job i => exact hr

theorem SameRecords.symm (hr : SameRecords h g) : SameRecords g h :=
  ⟨hr.calls.symm, hr.tickets.symm, hr.ticket.symm, hr.owner.symm, hr.published.symm⟩

theorem SameRecords.trans {g' : History} (h₁ : SameRecords h g) (h₂ : SameRecords g g') :
    SameRecords h g' :=
  ⟨h₁.calls.trans h₂.calls, h₁.tickets.trans h₂.tickets, h₁.ticket.trans h₂.ticket,
    h₁.owner.trans h₂.owner, h₁.published.trans h₂.published⟩

theorem sameRecords_consume (h : History) (q : SharedQueueLayout) (pc : PopPc) :
    SameRecords (h.consume q pc) h := by
  cases pc with
  | loadState job index => simp only [History.consume]; split <;> exact ⟨rfl, rfl, rfl, rfl, rfl⟩
  | clearByte job index hd k =>
      simp only [History.consume]
      split <;> exact ⟨rfl, rfl, rfl, rfl, rfl⟩
  | _ => exact ⟨rfl, rfl, rfl, rfl, rfl⟩

theorem setSlot_comm (q : SharedQueueLayout) {i j : Fin queueCapacity} (h : i ≠ j)
    (a b : MessageSlot) : (q.setSlot i a).setSlot j b = (q.setSlot j b).setSlot i a := by
  unfold SharedQueueLayout.setSlot
  simp only [Function.update_comm h]

/-- A push neither sees nor changes what is in a READY slot. -/
theorem pushStep_ready {pc : PushPc} (hr : (q.slots i).state = SlotState.ready.code)
    (ho : pc.owns ≠ some i) : (pushStep q pc).1.slots i = q.slots i := by
  by_cases ht : pc.touches = some i
  · cases pc with
    | compareExchange job index =>
        obtain rfl := Option.some.inj ht
        rw [pushStep_refused (by rw [hr]; decide)]
    | fetchAdd job | done pushed => cases ht
    | putType job j | putLength job j | copyByte job j k => exact absurd ht ho
  · exact pushStep_slots q ht

theorem pushStep_setSlot {pc : PushPc} (hr : (q.slots i).state = SlotState.ready.code)
    (hslot : slot.state = SlotState.ready.code) (ho : pc.owns ≠ some i) :
    pushStep (q.setSlot i slot) pc = ((pushStep q pc).1.setSlot i slot, (pushStep q pc).2) := by
  cases pc with
  | fetchAdd job => rfl
  | done pushed => rfl
  | compareExchange job index =>
      by_cases e : getSlot index = i
      · subst e
        rw [pushStep_refused (by rw [setSlot_slots_self, hslot]; decide),
          pushStep_refused (by rw [hr]; decide)]
      · have hsame := setSlot_slots_of_ne q i slot e
        by_cases he : (q.slots (getSlot index)).state = SlotState.empty.code
        · rw [pushStep_claim he, pushStep_claim (by rw [hsame]; exact he), hsame,
            setSlot_comm q (Ne.symm e)]
        · rw [pushStep_refused he, pushStep_refused (by rw [hsame]; exact he)]
  | putType job j | putLength job j =>
      have e : j ≠ i := fun e => ho (congrArg some e)
      simp only [pushStep, setSlot_slots_of_ne q i slot e, setSlot_comm q (Ne.symm e)]
  | copyByte job j k =>
      have e : j ≠ i := fun e => ho (congrArg some e)
      by_cases hk : k < job.length
      · simp only [pushStep_copy hk, setSlot_slots_of_ne q i slot e, setSlot_comm q (Ne.symm e)]
      · simp only [pushStep_publish hk, setSlot_slots_of_ne q i slot e, setSlot_comm q (Ne.symm e)]

/-- **What a pop is about to return is returned or stays about to be**, but for the EMPTY store. -/
theorem returning_step {pc : PopPc}
    (hnr : ∀ job index hd k, pc = .clearByte job index hd k → k < maxPayloadSize) :
    ↑pc.handing + ((popStep q pc).2.map PopPc.returning).getD 0 = pc.returning := by
  cases pc with
  | loadState job index => simp only [popStep]; split <;> rfl
  | loadLength job index type =>
      exact PopPc.onHeader_cases (motive := fun pc => 0 + pc.returning = 0) rfl
        (fun _ _ _ => rfl) fun _ _ _ => rfl
  | copyByte job index hd k => simp only [popStep]; split <;> rfl
  | clearByte job index hd k => rw [popStep_clear (hnr job index hd k rfl)]; rfl
  | storeIndex job index hd =>
      by_cases e : hd.header.type = job.expected
      · simp [popStep, PopPc.handing, PopPc.returning, e]
      · simp [popStep, PopPc.handing, PopPc.returning, e]
  | done job popped =>
      cases popped with
      | true => exact add_zero _
      | false => rfl
  | loadIndex job => rfl
  | loadType job index => rfl
  | clearType job index hd => rfl
  | clearLength job index hd => rfl

/-- A pop does not change its mind about the type. -/
theorem expected_step {pc pc' : PopPc} (hs : (popStep q pc).2 = some pc') :
    pc'.expected = pc.expected := by
  cases pc with
  | loadState job index => simp only [popStep] at hs; split at hs <;> cases hs <;> rfl
  | loadLength job index type =>
      obtain rfl := Option.some.inj hs
      exact PopPc.onHeader_cases (motive := fun pc => pc.expected = job.expected) rfl
        (fun _ _ _ => rfl) fun _ _ _ => rfl
  | copyByte job index hd k => simp only [popStep] at hs; split at hs <;> cases hs <;> rfl
  | clearByte job index hd k => simp only [popStep] at hs; split at hs <;> cases hs <;> rfl
  | done job popped => cases hs
  | _ => cases hs; rfl

end Steps

/-! ## 4. The machine beside it -/

/-- A pop at a half-cleared slot: it finds the type UNKNOWN there and clears the slot again. -/
def PopPc.Mends (index : UInt64) (slot : MessageSlot) : PopPc → Prop
  | .loadIndex _ => True
  | .loadState _ index' | .loadType _ index' => index' = index
  | .loadLength _ index' type => index' = index ∧ type = MessageType.unknown.code
  | .clearType _ index' hd | .clearLength _ index' hd =>
    index' = index ∧ hd.header.type = MessageType.unknown.code
  | .clearByte _ index' hd k => index' = index ∧ hd.header.type = MessageType.unknown.code ∧
    slot.header.length = 0 ∧ ∀ j : Fin maxPayloadSize, j.val < k → slot.payload j = 0
  | .done _ popped => popped = false
  | .copyByte _ _ _ _ | .storeIndex _ _ _ => False

/-- **The machine `g` beside the machine `s`**: the same queue and the same consumer; or the slot at
    `read_index` is half cleared in `s`, READY as it was in `g`, and the consumer of `g` idle. -/
inductive Mirrors (s g : System) : ℕ → Prop where
  | whole (hq : s.queue = g.queue) (hc : s.consumer = g.consumer) : Mirrors s g 0
  | scarred (slot : MessageSlot) (hslot : slot.Scarred)
      (hr : (g.queue.slots (getSlot g.queue.readIndex)).state = SlotState.ready.code)
      (hq : s.queue = g.queue.setSlot (getSlot g.queue.readIndex) slot) (hg : g.consumer = none)
      (hc : ∀ pc, s.consumer = some pc → pc.Mends g.queue.readIndex slot) : Mirrors s g 1

/-- The READY slots are the same on both sides. -/
theorem Mirrors.ready {s g : System} {scars : ℕ} (h : Mirrors s g scars) (i : Fin queueCapacity) :
    (s.queue.slots i).state = SlotState.ready.code ↔
      (g.queue.slots i).state = SlotState.ready.code := by
  cases h with
  | whole hq _ => rw [hq]
  | scarred slot hslot hr hq _ _ =>
      rw [hq]
      by_cases e : i = getSlot g.queue.readIndex
      · rw [e, setSlot_slots_self]
        exact iff_of_true hslot.1 hr
      · rw [setSlot_slots_of_ne _ _ _ e]

/-- What a READY slot stands for is what is in it, but for the slot that the consumer clears. -/
theorem Inv.readyMessage_slot {g : System} (h : Inv g) {i : Fin queueCapacity} {m : Message}
    (hm : g.readyMessage i = some m) : (g.queue.slots i).message = m ∨
      i = getSlot g.queue.readIndex ∧
        (g.queue.slots i).header.type = MessageType.unknown.code := by
  unfold System.readyMessage at hm
  split at hm
  · split at hm
    next hheld =>
      obtain ⟨pc, hpc, hi⟩ := Option.bind_eq_some_iff.mp hheld
      obtain ⟨sent, hd, -, hobserved, -⟩ := (h.phase i).held hpc hi
      by_cases hclears : pc.clears = some i
      · obtain ⟨-, hscar, hindex, -⟩ := h.undo hpc hclears
        exact .inr ⟨hindex, hscar.2⟩
      · left
        rw [hd.intact hi hclears, sent.message_fill, ← hobserved]
        exact Option.some.inj hm
    next => exact .inl (Option.some.inj hm)
  · cases hm

/-- The same in the machine beside it. -/
theorem Mirrors.readyMessage {s g : System} {scars : ℕ} (h : Mirrors s g scars) (hI : Inv g)
    {i : Fin queueCapacity} {m : Message} (hm : g.readyMessage i = some m) :
    (s.queue.slots i).message = m ∨ i = getSlot s.queue.readIndex ∧
      (s.queue.slots i).header.type = MessageType.unknown.code := by
  cases h with
  | whole hq _ =>
      rw [hq]
      exact hI.readyMessage_slot hm
  | scarred slot hslot hr hq hg _ =>
      have hindex : s.queue.readIndex = g.queue.readIndex := by rw [hq]; rfl
      rw [hindex, hq]
      by_cases e : i = getSlot g.queue.readIndex
      · rw [e, setSlot_slots_self]
        exact .inr ⟨rfl, hslot.2⟩
      · rw [setSlot_slots_of_ne _ _ _ e]
        exact hI.readyMessage_slot hm

/-- **The books**: what `g` has consumed was received, is being returned, is lost, or is of another
    type; and every loss, past or to come, was a restart. -/
def Balanced (T : MessageType) (r : Restarting) (g : System) (scars : ℕ) : Prop :=
  ∃ lost skipped : Multiset Message,
    (↑(g.history.consumed.map (·.entry.message)) : Multiset Message) =
      ↑r.received + r.system.returning + lost + skipped ∧
    (∀ m ∈ skipped, m.type ≠ T.code) ∧ lost.card + scars ≤ r.restarts

/-- **The invariant.** -/
structure Recovers (T : MessageType) (r : Restarting) (g : System) (scars : ℕ) : Prop where
  inv : Inv g
  producers : r.system.producers = g.producers
  halted : r.system.halted = g.halted
  records : SameRecords r.system.history g.history
  mirrors : Mirrors r.system g scars
  asks : ∀ pc, r.system.consumer = some pc → pc.expected = T.code
  books : Balanced T r g scars

section Recover

variable {T : MessageType} {r r' : Restarting} {g g' : System} {scars : ℕ}

theorem recovers_start (T : MessageType) (memory : SharedQueueLayout) :
    Recovers T (.start memory) (.start memory) 0 where
  inv := inv_start memory
  producers := rfl
  halted := rfl
  records := ⟨rfl, rfl, rfl, rfl, rfl⟩
  mirrors := .whole rfl rfl
  asks _ h := by cases h
  books := ⟨0, 0, rfl, fun _ h => absurd h (Multiset.notMem_zero _), Nat.le_refl _⟩

/-- Nobody owns the slot that is half cleared. -/
theorem Inv.unowned (h : Inv g) {i : Fin queueCapacity} (hg : g.consumer = none)
    (hr : (g.queue.slots i).state = SlotState.ready.code) {p : ℕ} {pc : PushPc}
    (hpc : g.producers p = some pc) : pc.owns ≠ some i := by
  have hfree : ¬ g.Held i := fun ⟨_, e, _⟩ => by rw [hg] at e; cases e
  obtain ⟨-, -, -, hp⟩ := (h.phase i).of_ready hr hfree
  exact fun ho => hp p ⟨pc, hpc, ho⟩

/-- A step that leaves the consumers, what was consumed and the other books alone. -/
theorem Balanced.keep (h : Balanced T r g scars)
    (hconsumed : g'.history.consumed = g.history.consumed)
    (hbooks : (↑r'.received + r'.system.returning : Multiset Message) =
      ↑r.received + r.system.returning)
    (hrestarts : r'.restarts = r.restarts) : Balanced T r' g' scars := by
  obtain ⟨lost, skipped, hsum, hskipped, hlost⟩ := h
  exact ⟨lost, skipped, by rw [hconsumed, hbooks, hsum], hskipped, by rw [hrestarts]; exact hlost⟩

theorem Recovers.callPush (h : Recovers T r g scars) {p : ℕ} (hp : r.system.producers p = none)
    (a : PushArgs) :
    Recovers T { r with system := r.system.callPush p a, received := r.received ++ [] }
      (g.callPush p a) scars where
  inv := inv_callPush h.inv (by rw [← h.producers]; exact hp) a
  producers := by
    show Function.update r.system.producers p _ = Function.update g.producers p _
    rw [h.producers]
  halted := h.halted
  records := by
    refine ⟨?_, h.records.tickets, h.records.ticket, h.records.owner, h.records.published⟩
    show Function.update r.system.history.calls p _ = Function.update g.history.calls p _
    rw [h.records.calls]
  mirrors := by
    cases h.mirrors with
    | whole hq hc => exact .whole hq hc
    | scarred slot hslot hr hq hg hc => exact .scarred slot hslot hr hq hg hc
  asks := h.asks
  books := h.books.keep rfl (by rw [List.append_nil]; rfl) rfl

theorem Recovers.halt (h : Recovers T r g scars) (p : ℕ) :
    Recovers T { r with system := r.system.halt p, received := r.received ++ [] } (g.halt p)
      scars where
  inv := inv_halt h.inv p
  producers := h.producers
  halted := by
    show Function.update r.system.halted p true = Function.update g.halted p true
    rw [h.halted]
  records := h.records
  mirrors := by
    cases h.mirrors with
    | whole hq hc => exact .whole hq hc
    | scarred slot hslot hr hq hg hc => exact .scarred slot hslot hr hq hg hc
  asks := h.asks
  books := h.books.keep rfl (by rw [List.append_nil]; rfl) rfl

/-- Producers take the same steps on both sides. -/
theorem Recovers.produce (h : Recovers T r g scars) {p : ℕ} {pc : PushPc}
    (hpc : r.system.producers p = some pc) :
    Recovers T { r with system := r.system.produce p pc, received := r.received ++ [] }
      (g.produce p pc) scars := by
  have hpc' : g.producers p = some pc := by rw [← h.producers]; exact hpc
  have hmirrors : (pushStep r.system.queue pc).2 = (pushStep g.queue pc).2 ∧
      Mirrors (r.system.produce p pc) (g.produce p pc) scars := by
    cases h.mirrors with
    | whole hq hc =>
        refine ⟨by rw [hq], .whole ?_ hc⟩
        show (pushStep r.system.queue pc).1 = (pushStep g.queue pc).1
        rw [hq]
    | scarred slot hslot hr hq hg hc =>
        have ho := h.inv.unowned hg hr hpc'
        have hstep := pushStep_setSlot hr hslot.1 ho
        have hindex := pushStep_readIndex g.queue pc
        rw [hq, hstep]
        refine ⟨rfl, .scarred slot hslot ?_ ?_ hg ?_⟩
        · show ((pushStep g.queue pc).1.slots (getSlot (pushStep g.queue pc).1.readIndex)).state = _
          rw [hindex, pushStep_ready hr ho, hr]
        · show (pushStep r.system.queue pc).1 =
            (pushStep g.queue pc).1.setSlot (getSlot (pushStep g.queue pc).1.readIndex) slot
          rw [hq, hstep, hindex]
        · intro pc' hpc'
          show pc'.Mends (pushStep g.queue pc).1.readIndex slot
          rw [hindex]
          exact hc pc' hpc'
  refine ⟨inv_produce h.inv hpc', ?_, h.halted, h.records.produce p pc, hmirrors.2, h.asks,
    h.books.keep (produce_observed _ _ _).2 (by rw [List.append_nil]; rfl) rfl⟩
  show Function.update r.system.producers p _ = Function.update g.producers p _
  rw [h.producers, hmirrors.1]

theorem enter_mends (a : PopArgs) (index : UInt64) (slot : MessageSlot) :
    a.enter.Mends index slot ∧ a.enter.expected = a.expectedType.code ∧ a.enter.returning = 0 := by
  unfold PopArgs.enter
  split
  next => exact ⟨rfl, rfl, rfl⟩
  next job hg =>
    refine ⟨trivial, ?_, rfl⟩
    unfold PopArgs.guard at hg
    split at hg
    · cases hg
    · split at hg <;> cases hg
      rfl

/-- A new call; beside a half-cleared slot the other machine waits. -/
theorem Recovers.callPop (h : Recovers T r g scars) (hc : r.system.consumer = none) {a : PopArgs}
    (ha : a.expectedType.code = T.code) :
    ∃ g', Recovers T { r with system := r.system.callPop a, received := r.received ++ [] } g'
      scars := by
  have hasks : ∀ pc, (r.system.callPop a).consumer = some pc → pc.expected = T.code := by
    intro pc hpc
    obtain rfl := Option.some.inj hpc
    exact (enter_mends a 0 .cleared).2.1.trans ha
  have hreturning : (↑(r.received ++ ([] : List Message)) : Multiset Message) +
      (r.system.callPop a).returning = ↑r.received + r.system.returning := by
    have hnew : (r.system.callPop a).returning = 0 := (enter_mends a 0 .cleared).2.2
    have hold : r.system.returning = 0 := by unfold System.returning; rw [hc]; rfl
    rw [hnew, hold, List.append_nil]
  cases h.mirrors with
  | whole hq hcs =>
      exact ⟨g.callPop a, inv_callPop h.inv (hcs.symm.trans hc) a, h.producers, h.halted, h.records,
        .whole hq rfl, hasks, h.books.keep rfl hreturning rfl⟩
  | scarred slot hslot hr hq hg _ =>
      refine ⟨g, h.inv, h.producers, h.halted, h.records,
        .scarred slot hslot hr hq hg fun pc hpc => ?_, hasks, h.books.keep rfl hreturning rfl⟩
      obtain rfl := Option.some.inj hpc
      exact (enter_mends a _ slot).1

theorem setSlot_eq_self (q : SharedQueueLayout) (i : Fin queueCapacity) :
    q.setSlot i (q.slots i) = q := by
  unfold SharedQueueLayout.setSlot
  rw [Function.update_eq_self]

/-- A step of the consumer other than the EMPTY store. -/
def PopPc.Releases (pc : PopPc) : Prop :=
  ∃ job index hd k, pc = .clearByte job index hd k ∧ ¬ k < maxPayloadSize

theorem not_releases {pc : PopPc} (h : ¬ pc.Releases) :
    ∀ job index hd k, pc = .clearByte job index hd k → k < maxPayloadSize :=
  fun job index hd k e => Classical.not_not.mp fun hk => h ⟨job, index, hd, k, e, hk⟩

/-- **A pop works on a half-cleared slot**: the slot stays half cleared until the EMPTY store. -/
theorem mends_step {q : SharedQueueLayout} {slot : MessageSlot} {pc : PopPc}
    (hslot : slot.Scarred) (hT : T.code ≠ MessageType.unknown.code) (hasks : pc.expected = T.code)
    (hm : pc.Mends q.readIndex slot) (hnr : ¬ pc.Releases) :
    ∃ slot' : MessageSlot, slot'.Scarred ∧
      (popStep (q.setSlot (getSlot q.readIndex) slot) pc).1 =
        q.setSlot (getSlot q.readIndex) slot' ∧
      ∀ pc', (popStep (q.setSlot (getSlot q.readIndex) slot) pc).2 = some pc' →
        pc'.Mends q.readIndex slot' := by
  have hself : (q.setSlot (getSlot q.readIndex) slot).slots (getSlot q.readIndex) = slot :=
    setSlot_slots_self _ _ _
  cases pc with
  | loadIndex job => exact ⟨slot, hslot, rfl, fun pc' e => by cases e; rfl⟩
  | loadState job index =>
      obtain rfl : index = q.readIndex := hm
      rw [popStep_observe (by rw [hself]; exact hslot.1)]
      exact ⟨slot, hslot, rfl, fun pc' e => by cases e; rfl⟩
  | loadType job index =>
      obtain rfl : index = q.readIndex := hm
      refine ⟨slot, hslot, rfl, fun pc' e => ?_⟩
      obtain rfl := Option.some.inj e
      exact ⟨rfl, by rw [hself]; exact hslot.2⟩
  | loadLength job index type =>
      obtain ⟨rfl, htype⟩ := hm
      refine ⟨slot, hslot, rfl, fun pc' e => ?_⟩
      obtain rfl := Option.some.inj e
      have hne : type ≠ job.expected := fun e => hT (hasks.symm.trans (e.symm.trans htype))
      exact PopPc.onHeader_cases rfl (fun _ _ he => absurd he hne) fun hd hh _ =>
        ⟨rfl, by rw [hh]; exact htype⟩
  | clearType job index hd =>
      obtain ⟨rfl, htype⟩ := hm
      refine ⟨{ slot with header := ⟨MessageType.unknown.code, slot.header.length⟩ },
        ⟨hslot.1, rfl⟩, ?_, fun pc' e => ?_⟩
      · simp only [popStep, setSlot_setSlot, hself]
      · obtain rfl := Option.some.inj e
        exact ⟨rfl, htype⟩
  | clearLength job index hd =>
      obtain ⟨rfl, htype⟩ := hm
      refine ⟨{ slot with header := ⟨slot.header.type, 0⟩ }, hslot, ?_, fun pc' e => ?_⟩
      · simp only [popStep, setSlot_setSlot, hself]
      · obtain rfl := Option.some.inj e
        exact ⟨rfl, htype, rfl, fun j hj => absurd hj (Nat.not_lt_zero _)⟩
  | clearByte job index hd k =>
      obtain ⟨rfl, htype, hlength, hzero⟩ := hm
      have hk : k < maxPayloadSize := not_releases hnr _ _ _ _ rfl
      rw [popStep_clear hk]
      refine ⟨{ slot with payload := slot.payload.put ⟨k, hk⟩ 0 }, hslot, ?_, fun pc' e => ?_⟩
      · simp only [setSlot_setSlot, hself]
      · obtain rfl := Option.some.inj e
        refine ⟨rfl, htype, hlength, fun j hj => ?_⟩
        by_cases e : j = ⟨k, hk⟩
        · rw [e]
          exact Function.update_self _ _ _
        · have hlt : j.val < k := Nat.lt_of_le_of_ne (Nat.le_of_lt_succ hj) fun h => e (Fin.ext h)
          exact (Function.update_of_ne e _ _).trans (hzero j hlt)
  | done job popped =>
      obtain rfl : popped = false := hm
      exact ⟨slot, hslot, rfl, fun pc' e => by cases e⟩
  | copyByte job index hd k => exact hm.elim
  | storeIndex job index hd => exact hm.elim

/-- A consumer step that is not the EMPTY store. -/
theorem Recovers.consume_quiet (h : Recovers T r g scars) (hT : T.code ≠ MessageType.unknown.code)
    {pc : PopPc} (hpc : r.system.consumer = some pc) (hnr : ¬ pc.Releases) :
    ∃ g', Recovers T { r with
      system := r.system.consume pc, received := r.received ++ pc.handing } g' scars := by
  have hasks : ∀ pc', (r.system.consume pc).consumer = some pc' → pc'.expected = T.code :=
    fun pc' hpc' => (expected_step hpc').trans (h.asks pc hpc)
  have hreturning : (↑(r.received ++ pc.handing) : Multiset Message) +
      (r.system.consume pc).returning = ↑r.received + r.system.returning := by
    have hold : r.system.returning = pc.returning := by unfold System.returning; rw [hpc]; rfl
    rw [← Multiset.coe_add, add_assoc, hold,
      ← returning_step (q := r.system.queue) (not_releases hnr)]
    rfl
  have hrecords := (sameRecords_consume r.system.history r.system.queue pc).trans h.records
  cases h.mirrors with
  | whole hq hc =>
      have hpc' : g.consumer = some pc := hc.symm.trans hpc
      refine ⟨g.consume pc, inv_consume h.inv hpc', h.producers, h.halted,
        hrecords.trans (sameRecords_consume g.history g.queue pc).symm, .whole ?_ ?_, hasks,
        h.books.keep (pending_consume g (not_releases hnr)).2 hreturning rfl⟩
      · show (popStep r.system.queue pc).1 = (popStep g.queue pc).1
        rw [hq]
      · show (popStep r.system.queue pc).2 = (popStep g.queue pc).2
        rw [hq]
  | scarred slot hslot hr hq hg hc =>
      obtain ⟨slot', hslot', hqueue, hmends⟩ :=
        mends_step hslot hT (h.asks pc hpc) (hc pc hpc) hnr
      rw [← hq] at hqueue hmends
      exact ⟨g, h.inv, h.producers, h.halted, hrecords,
        .scarred slot' hslot' hr hqueue hg hmends, hasks, h.books.keep rfl hreturning rfl⟩

/-- The EMPTY store of a pop whose slot was whole: its message is on its way to the caller, or of
    another type. -/
theorem Recovers.release_whole (h : Recovers T r g 0) {job : PopJob} {index : UInt64}
    {hd : FitHeader} {k : ℕ} (hk : ¬ k < maxPayloadSize)
    (hpc : r.system.consumer = some (.clearByte job index hd k))
    (hq : r.system.queue = g.queue) (hc : r.system.consumer = g.consumer) :
    Recovers T { r with
      system := r.system.consume (.clearByte job index hd k), received := r.received ++ [] }
      (g.consume (.clearByte job index hd k)) 0 := by
  have hpc' : g.consumer = some (.clearByte job index hd k) := hc.symm.trans hpc
  obtain ⟨hconsumed, hdelivered⟩ := consumed_release h.inv hpc' hk
  have hrecords := (sameRecords_consume r.system.history r.system.queue
    (.clearByte job index hd k)).trans h.records
  refine ⟨inv_consume h.inv hpc', h.producers, h.halted,
    hrecords.trans (sameRecords_consume g.history g.queue (.clearByte job index hd k)).symm,
    .whole ?_ ?_, fun pc' hpc' => (expected_step hpc').trans (h.asks _ hpc), ?_⟩
  · show (popStep r.system.queue _).1 = (popStep g.queue _).1
    rw [hq]
  · show (popStep r.system.queue _).2 = (popStep g.queue _).2
    rw [hq]
  · obtain ⟨lost, skipped, hsum, hskipped, hlost⟩ := h.books
    have hold : r.system.returning = 0 := by unfold System.returning; rw [hpc]; rfl
    have hnew : (r.system.consume (.clearByte job index hd k)).returning =
        if hd.header.type = job.expected then {job.delivered} else 0 := by
      unfold System.returning
      show ((popStep r.system.queue _).2.map PopPc.returning).getD 0 = _
      rw [popStep_release hk]
      rfl
    have hbooks : (↑((g.consume (.clearByte job index hd k)).history.consumed.map
        (·.entry.message)) : Multiset Message) =
        ↑r.received + lost + skipped + {(g.history.owner (getSlot index)).message} := by
      show (↑((g.history.consume g.queue _).consumed.map (·.entry.message)) : Multiset Message) = _
      rw [hconsumed, List.map_append, ← Multiset.coe_add, hsum, hold, add_zero]
      rfl
    by_cases htype : hd.header.type = job.expected
    · refine ⟨lost, skipped, ?_, hskipped, hlost⟩
      rw [hbooks, hnew, if_pos htype, hdelivered htype, List.append_nil]
      abel
    · refine ⟨lost, skipped + {(g.history.owner (getSlot index)).message}, ?_, fun m hm => ?_,
        hlost⟩
      · rw [hbooks, hnew, if_neg htype, List.append_nil]
        abel
      · rcases Multiset.mem_add.mp hm with hm | hm
        · exact hskipped m hm
        · rw [Multiset.mem_singleton.mp hm]
          obtain ⟨sent, ⟨⟨hheader, -⟩, -⟩, hm, -⟩ := (h.inv.phase (getSlot index)).held hpc' rfl
          have hT : job.expected = T.code := h.asks _ hpc
          have hsent : hd.header.type = sent.type := congrArg MessageHeader.type hheader
          rw [hm, ← hT]
          exact fun e => htype (hsent.trans e)

/-- The EMPTY store of a pop whose slot was half cleared: the message that stood there is lost. -/
theorem Recovers.release_scarred (h : Recovers T r g 1) (hT : T.code ≠ MessageType.unknown.code)
    {job : PopJob} {index : UInt64} {hd : FitHeader} {k : ℕ} (hk : ¬ k < maxPayloadSize)
    (hpc : r.system.consumer = some (.clearByte job index hd k)) {slot : MessageSlot}
    (hslot : slot.Scarred)
    (hr : (g.queue.slots (getSlot g.queue.readIndex)).state = SlotState.ready.code)
    (hq : r.system.queue = g.queue.setSlot (getSlot g.queue.readIndex) slot)
    (hg : g.consumer = none)
    (hm : (PopPc.clearByte job index hd k).Mends g.queue.readIndex slot) :
    ∃ g', Recovers T { r with
      system := r.system.consume (.clearByte job index hd k), received := r.received ++ [] }
      g' 0 := by
  obtain ⟨rfl, htype, hlength, hzero⟩ := hm
  have hexpected : job.expected = T.code := h.asks _ hpc
  have hne : hd.header.type ≠ job.expected :=
    fun e => hT (hexpected.symm.trans (e.symm.trans htype))
  have hcleared : ({ slot with state := SlotState.empty.code } : MessageSlot) = .cleared := by
    have hpayload : slot.payload = fun _ => 0 :=
      funext fun j => hzero j (Nat.lt_of_lt_of_le j.isLt (Nat.not_lt.mp hk))
    have hheader : slot.header = ⟨MessageType.unknown.code, 0⟩ := by
      rw [← hslot.2, ← hlength]
    rw [hpayload, hheader]
    rfl
  have hstep : popStep r.system.queue (.clearByte job g.queue.readIndex hd k) =
      (g.queue.setSlot (getSlot g.queue.readIndex) .cleared,
        some (.storeIndex job g.queue.readIndex hd)) := by
    rw [popStep_release hk, hq, setSlot_slots_self, setSlot_setSlot, hcleared]
  have hrecords := (sameRecords_consume r.system.history r.system.queue
    (.clearByte job g.queue.readIndex hd k)).trans h.records
  refine ⟨_, h.inv.discard hg rfl hr hne, h.producers, h.halted, ?_, .whole ?_ ?_, ?_, ?_⟩
  · exact ⟨hrecords.calls, hrecords.tickets, hrecords.ticket, hrecords.owner, hrecords.published⟩
  · exact congrArg Prod.fst hstep
  · exact congrArg Prod.snd hstep
  · exact fun pc' hpc' => (expected_step hpc').trans hexpected
  · obtain ⟨lost, skipped, hsum, hskipped, hlost⟩ := h.books
    have hold : r.system.returning = 0 := by unfold System.returning; rw [hpc]; rfl
    have hnew : (r.system.consume (.clearByte job g.queue.readIndex hd k)).returning = 0 := by
      unfold System.returning
      show ((popStep r.system.queue _).2.map PopPc.returning).getD 0 = _
      rw [hstep]
      exact if_neg hne
    refine ⟨lost + {(g.history.owner (getSlot g.queue.readIndex)).message}, skipped, ?_, hskipped,
      ?_⟩
    · rw [hnew, List.append_nil, List.map_append, ← Multiset.coe_add, hsum, hold]
      show _ + {(g.history.owner (getSlot g.queue.readIndex)).message} = _
      abel
    · rw [Multiset.card_add, Multiset.card_singleton]
      exact hlost

/-- **Every step of the consumer.** -/
theorem Recovers.consume (h : Recovers T r g scars) (hT : T.code ≠ MessageType.unknown.code)
    {pc : PopPc} (hpc : r.system.consumer = some pc) :
    ∃ g' scars', Recovers T { r with
      system := r.system.consume pc, received := r.received ++ pc.handing } g' scars' := by
  by_cases hrel : pc.Releases
  · obtain ⟨job, index, hd, k, rfl, hk⟩ := hrel
    cases hmirrors : h.mirrors with
    | whole hq hc => exact ⟨_, 0, h.release_whole hk hpc hq hc⟩
    | scarred slot hslot hr hq hg hc =>
        obtain ⟨g', hg'⟩ := h.release_scarred hT hk hpc hslot hr hq hg (hc _ hpc)
        exact ⟨g', 0, hg'⟩
  · obtain ⟨g', hg'⟩ := h.consume_quiet hT hpc hrel
    exact ⟨g', scars, hg'⟩

theorem card_returning_le (s : System) : s.returning.card ≤ 1 := by
  unfold System.returning
  cases s.consumer with
  | none => exact Nat.zero_le _
  | some pc =>
      cases pc with
      | storeIndex job index hd =>
          show (if hd.header.type = job.expected then {job.delivered} else 0 :
            Multiset Message).card ≤ 1
          split <;> simp
      | done job popped => cases popped <;> simp [PopPc.returning]
      | _ => exact Nat.zero_le _

/-- **The consumer is killed and started again.** A clear under way leaves a half-cleared slot, and
    a message on its way to the caller is lost. -/
theorem Recovers.restart (h : Recovers T r g scars) :
    ∃ g' scars', Recovers T { r with
      system := { r.system with consumer := none }, restarts := r.restarts + 1 } g' scars' := by
  have hnew : ({ r.system with consumer := none } : System).returning = 0 := rfl
  obtain ⟨lost, skipped, hsum, hskipped, hlost⟩ := h.books
  cases h.mirrors with
  | whole hq hc =>
      by_cases hclears : ∃ pc i, g.consumer = some pc ∧ pc.clears = some i
      · obtain ⟨pc, i, hpc, hi⟩ := hclears
        obtain ⟨sent, hscar, hindex, hinv⟩ := h.inv.undo hpc hi
        have hold : r.system.returning = 0 := by
          unfold System.returning
          rw [hc, hpc]
          cases pc <;> first | rfl | cases hi
        refine ⟨_, 1, hinv, h.producers, h.halted, h.records,
          .scarred (g.queue.slots i) hscar ?_ ?_ rfl (fun _ e => by cases e),
          (fun _ e => by cases e), lost, skipped, ?_, hskipped, ?_⟩
        · show ((g.queue.setSlot i _).slots (getSlot g.queue.readIndex)).state = _
          rw [← hindex, setSlot_slots_self]
          rfl
        · show r.system.queue = (g.queue.setSlot i _).setSlot (getSlot g.queue.readIndex) _
          rw [← hindex, setSlot_setSlot, setSlot_eq_self, hq]
        · rw [hnew]
          rw [hold] at hsum
          exact hsum
        · exact Nat.succ_le_succ hlost
      · have hnone : ∀ pc, g.consumer = some pc → pc.clears = none := fun pc hpc => by
          cases hi : pc.clears with
          | none => rfl
          | some i => exact absurd ⟨pc, i, hpc, hi⟩ hclears
        refine ⟨_, 0, h.inv.abandon hnone, h.producers, h.halted, h.records, .whole hq rfl,
          (fun _ e => by cases e), lost + r.system.returning, skipped, ?_, hskipped, ?_⟩
        · rw [hnew, hsum]
          abel
        · have := card_returning_le r.system
          rw [Multiset.card_add]
          show _ ≤ r.restarts + 1
          omega
  | scarred slot hslot hr hq hg hc =>
      have hold : r.system.returning = 0 := by
        unfold System.returning
        cases hpc : r.system.consumer with
        | none => rfl
        | some pc =>
            have hm := hc pc hpc
            cases pc with
            | done job popped => obtain rfl : popped = false := hm; rfl
            | storeIndex job index hd => exact hm.elim
            | _ => rfl
      refine ⟨g, 1, h.inv, h.producers, h.halted, h.records,
        .scarred slot hslot hr hq hg (fun _ e => by cases e), (fun _ e => by cases e), lost,
        skipped, ?_, hskipped, Nat.le_succ_of_le hlost⟩
      rw [hnew]
      rw [hold] at hsum
      exact hsum

theorem Recovers.step (h : Recovers T r g scars) (hT : T.code ≠ MessageType.unknown.code)
    {a : RestartAction} (ha : a.asks T = true) (hs : r.step a = some r') :
    ∃ g' scars', Recovers T r' g' scars' := by
  cases a with
  | restart =>
      obtain rfl := Option.some.inj hs
      exact h.restart
  | run a =>
      obtain ⟨s', hstep, rfl⟩ := Option.map_eq_some_iff.mp hs
      obtain ⟨p, args, rfl, _, hp, rfl⟩ | ⟨p, pc, rfl, _, hp, rfl⟩ | ⟨args, rfl, hc, rfl⟩ |
        ⟨pc, rfl, hc, rfl⟩ | ⟨p, rfl, rfl⟩ := step_cases hstep
      · exact ⟨_, scars, h.callPush hp args⟩
      · exact ⟨_, scars, h.produce hp⟩
      · obtain ⟨g', hg'⟩ := h.callPop hc (eq_of_beq ha)
        exact ⟨g', scars, hg'⟩
      · have hhands : r.system.hands .consume = pc.handing := by
          unfold System.hands
          rw [hc]
          rfl
        rw [hhands]
        exact h.consume hT hc
      · exact ⟨_, scars, h.halt p⟩

end Recover

/-! ## 5. The law -/

/-- **A restart loses at most one message.** Whatever a consumer that asks for a type other than
    UNKNOWN goes through, the accepted messages are those its callers have got, the one it is about
    to return, those lost, at most one for each restart, those of other types it has discarded, and
    those waiting, one in each READY slot: the message that is in the slot, but for the slot at
    `read_index` when a clear was begun there. -/
theorem restart_loses_at_most_one (memory : SharedQueueLayout) (T : MessageType)
    (hT : T.code ≠ MessageType.unknown.code) {r : Restarting}
    (h : ReachWhere Restarting.step (fun _ a => a.asks T = true) (.start memory) r) :
    ∃ (lost skipped : Multiset Message) (waiting : Fin queueCapacity → Option Message),
      (↑(r.system.history.published.map Entry.message) : Multiset Message) =
        ↑r.received + r.system.returning + lost + skipped + bagOf waiting ∧
      lost.card ≤ r.restarts ∧ (∀ m ∈ skipped, m.type ≠ T.code) ∧
      (bagOf waiting).card = r.system.queue.readyCount ∧
      (∀ i, (waiting i).isSome = true ↔
        (r.system.queue.slots i).state = SlotState.ready.code) ∧
      ∀ i m, waiting i = some m → (r.system.queue.slots i).message = m ∨
        i = getSlot r.system.queue.readIndex ∧
          (r.system.queue.slots i).header.type = MessageType.unknown.code := by
  obtain ⟨g, scars, hg⟩ : ∃ g scars, Recovers T r g scars :=
    h.invariant (I := fun r => ∃ g scars, Recovers T r g scars)
      ⟨_, 0, recovers_start T memory⟩ fun _ _ _ ⟨_, _, hI⟩ ha hs => hI.step hT ha hs
  obtain ⟨lost, skipped, hsum, hskipped, hlost⟩ := hg.books
  have hready : ∀ i, (g.readyMessage i).isSome = true ↔
      (r.system.queue.slots i).state = SlotState.ready.code := fun i => by
    rw [hg.mirrors.ready i]
    unfold System.readyMessage
    split <;> simp [*]
  refine ⟨lost, skipped, g.readyMessage, ?_, Nat.le_trans (Nat.le_add_right _ _) hlost, hskipped,
    ?_, hready, fun i m hm => hg.mirrors.readyMessage hg.inv hm⟩
  · rw [hg.records.published, hg.inv.messages, hsum]
  · rw [card_bagOf, SharedQueueLayout.readyCount]
    exact congrArg Finset.card (Finset.filter_congr fun i _ => hready i)

/-- A TEXT of one byte is published; the consumer dies behind the first store of its clear, and the
    next one finds the slot, clears it to the end and returns. -/
def diesClearing : List RestartAction :=
  [.run (.push 0 oneByte)] ++ List.replicate 7 (.run (.produce 0)) ++
    [.run (.pop popText)] ++ List.replicate 7 (.run .consume) ++ [.restart, .run (.pop popText)] ++
    List.replicate 265 (.run .consume)

theorem restart_loses_at_most_one_diesClearing :
    ∃ r, ReachWhere Restarting.step (fun _ a => a.asks .text = true) (.start .fresh) r ∧
      r.restarts = 1 ∧ r.received = [] ∧ r.system.history.published.length = 1 ∧
      r.system.consumer.isNone ∧
      ∃ (lost skipped : Multiset Message) (waiting : Fin queueCapacity → Option Message),
        (↑(r.system.history.published.map Entry.message) : Multiset Message) =
          ↑r.received + r.system.returning + lost + skipped + bagOf waiting ∧
        lost.card ≤ r.restarts ∧ (∀ m ∈ skipped, m.type ≠ MessageType.text.code) ∧
        (bagOf waiting).card = r.system.queue.readyCount ∧
        (∀ i, (waiting i).isSome = true ↔
          (r.system.queue.slots i).state = SlotState.ready.code) ∧
        ∀ i m, waiting i = some m → (r.system.queue.slots i).message = m ∨
          i = getSlot r.system.queue.readIndex ∧
            (r.system.queue.slots i).header.type = MessageType.unknown.code := by
  obtain ⟨r, hr, hp⟩ := reach_of_run Restarting.step (fun _ a => a.asks .text) (.start .fresh)
    diesClearing (fun r => decide (r.restarts = 1 ∧ r.received = [] ∧
      r.system.history.published.length = 1 ∧ r.system.consumer.isNone)) (by decide +kernel)
  obtain ⟨hrestarts, hreceived, hpublished, hidle⟩ := of_decide_eq_true hp
  exact ⟨r, hr, hrestarts, hreceived, hpublished, hidle,
    restart_loses_at_most_one .fresh .text (by decide) hr⟩

end HseMultithreading.Hw4
