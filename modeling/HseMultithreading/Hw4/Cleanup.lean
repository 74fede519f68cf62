/-
  File:      HseMultithreading/Hw4/Cleanup.lean
  Subject:   THE CLEAN-UP of the hw4 programs: any number of `producer_hw4` runs and one
             `consumer_hw4` run that drains the queue, closes it and unlinks the name
             (`hw4/producer_hw4.cpp`, `hw4/consumer_hw4.cpp`, `hw4/shm_utils.cpp`).

  Here a step is one call to the operating system or one complete operation on the queue.
  Unlinking removes the name; an object lives on for those who have mapped it, and the next
  `shm_open` with `O_EXCL` makes a fresh one.

  * `Host`, `Host.step` -- the objects, the name, the processes, with every failure path.
  * `HostInv` -- the accepted messages are the consumed ones together with the READY ones of ALL
    objects; and until the consumer unlinks, an initialised object is the one the name is bound
    to.
  * `kept_iff_keeps` -- so the messages are all consumed or READY in the bound object exactly when
    every step of the run met `Host.Keeps`: the consumer unlinks an empty queue, and no push is
    accepted by an object that has lost its name.
  * `cleanup_loses_messages` -- two complete runs in which accepted messages are lost.
-/
import Mathlib.Data.Multiset.OrderedMonoid
import HseMultithreading.Hw4.Startup

namespace HseMultithreading.Hw4

open StepSystem Bag

/-! ## 1. The READY messages of a queue -/

/-- The messages of the READY slots. -/
def SharedQueueLayout.readyMessages (q : SharedQueueLayout) : Multiset Message :=
  bagOf fun i => if (q.slots i).state = SlotState.ready.code then some (q.slots i).message else none

section ReadyMessages

variable {q : SharedQueueLayout}

theorem readyMessages_eq_zero (h : ∀ i, (q.slots i).state ≠ SlotState.ready.code) :
    q.readyMessages = 0 := by
  unfold SharedQueueLayout.readyMessages
  have e : (fun i => if (q.slots i).state = SlotState.ready.code then some (q.slots i).message
      else none) = fun _ => none := funext fun i => if_neg (h i)
  rw [e]
  exact bagOf_none

theorem readyMessages_zero : SharedQueueLayout.zero.readyMessages = 0 :=
  readyMessages_eq_zero fun _ => by
    show SlotState.empty.code ≠ SlotState.ready.code
    decide

/-- A slot that is not READY becomes READY. -/
theorem readyMessages_setSlot {i : Fin queueCapacity} {slot : MessageSlot}
    (hold : (q.slots i).state ≠ SlotState.ready.code) (hnew : slot.state = SlotState.ready.code) :
    (q.setSlot i slot).readyMessages = q.readyMessages + {slot.message} := by
  unfold SharedQueueLayout.readyMessages
  refine bagOf_fill (i := i) (fun j hj => ?_) (if_neg hold) ?_
  · simp only [setSlot_slots_of_ne _ _ _ hj]
  · simp only [setSlot_slots_self, hnew, if_true]

/-- An accepted push adds its message; every other one changes nothing. -/
theorem readyMessages_push (q : SharedQueueLayout) (a : PushArgs) :
    (tryPushMessage q a).1.readyMessages =
      q.readyMessages + if (tryPushMessage q a).2 then ↑(a.guard.map PushJob.message).toList
        else 0 := by
  cases hg : a.guard with
  | none => rw [tryPushMessage_none hg]; exact (add_zero _).symm
  | some job =>
      by_cases he : (q.slots (getSlot q.writeIndex)).state = SlotState.empty.code
      · rw [tryPushMessage_accepted hg he]
        have hne : (q.slots (getSlot q.writeIndex)).state ≠ SlotState.ready.code := by
          rw [he]
          simp
        have hset : (({ q with writeIndex := q.writeIndex + 1 } : SharedQueueLayout).setSlot
            (getSlot q.writeIndex) (job.fill (q.slots (getSlot q.writeIndex)))).readyMessages = _ :=
          readyMessages_setSlot hne rfl
        rw [job.message_fill] at hset
        exact hset
      · rw [tryPushMessage_occupied hg he]
        exact (add_zero _).symm

/-- What a pop takes out of its slot. -/
def popped (q : SharedQueueLayout) (a : PopArgs) : List Message :=
  if (tryPopMessage q a).queue.readIndex ≠ q.readIndex then
    [(q.slots (getSlot q.readIndex)).message]
  else []

theorem readyMessages_release (hr : (q.slots (getSlot q.readIndex)).state = SlotState.ready.code) :
    q.readyMessages = q.release.readyMessages + {(q.slots (getSlot q.readIndex)).message} := by
  unfold SharedQueueLayout.readyMessages
  refine bagOf_fill (i := getSlot q.readIndex) (fun j hj => ?_) ?_ (if_pos hr)
  · simp only [SharedQueueLayout.release, setSlot_slots_of_ne _ _ _ hj]
  · simp [SharedQueueLayout.release, MessageSlot.cleared]

/-- A pop moves a message from the READY ones to the consumed ones, or does nothing. -/
theorem readyMessages_pop (q : SharedQueueLayout) (a : PopArgs) :
    q.readyMessages = (tryPopMessage q a).queue.readyMessages + ↑(popped q a) := by
  unfold popped
  cases hg : a.guard with
  | none => rw [tryPopMessage_none hg]; simp
  | some job =>
      by_cases ht : Takes q job
      · have hq : (tryPopMessage q a).queue = q.release := by
          rw [tryPopMessage_takes hg ht]
          split <;> rfl
        rw [hq, if_pos (release_readIndex_ne q), readyMessages_release ht.1]
        rfl
      · rw [tryPopMessage_keeps hg ht]; simp

theorem queueMeta_push (q : SharedQueueLayout) (a : PushArgs) :
    (tryPushMessage q a).1.queueMeta = q.queueMeta := by
  unfold tryPushMessage
  split
  · rfl
  · simp only
    split <;> rfl

theorem queueMeta_pop (q : SharedQueueLayout) (a : PopArgs) :
    (tryPopMessage q a).queue.queueMeta = q.queueMeta := by
  cases hg : a.guard with
  | none => rw [tryPopMessage_none hg]
  | some job =>
      by_cases ht : Takes q job
      · rw [tryPopMessage_takes hg ht]
        split <;> rfl
      · rw [tryPopMessage_keeps hg ht]

end ReadyMessages

/-! ## 2. Processes, objects and the name -/

/-- A shared-memory object: its size and its bytes. -/
structure ShmObject where
  size : ℕ
  memory : SharedQueueLayout

/-- The object that `shm_open` with `O_CREAT` makes. -/
def ShmObject.new : ShmObject := ⟨0, .zero⟩

/-- What a run of `producer_hw4` does NEXT, with the object it has opened. -/
inductive ProducerPc where
  | shmOpenExcl
  | ftruncate (id : ℕ)
  | shmOpen
  | mmap (id : ℕ) (created : Bool)
  | initQueue (id : ℕ)
  | validate (id : ℕ)
  | pushNumber (id : ℕ)
  | pushText (id : ℕ)
  | close (code : ℕ)
  | exited (code : ℕ)
  | killed
  deriving DecidableEq

/-- What the run of `consumer_hw4` does NEXT. -/
inductive ConsumerPc where
  | shmOpen
  | mmap (id : ℕ)
  | validate (id : ℕ)
  | drain (id : ℕ)
  | close (valid : Bool)
  | unlink
  | exited (code : ℕ)
  | killed
  deriving DecidableEq

/-- The objects made so far are those with a number below `count`. -/
structure Host (m : ℕ) where
  objects : ℕ → ShmObject
  count : ℕ
  name : Option ℕ
  producers : Fin m → ProducerPc
  consumer : ConsumerPc
  accepted : List Message
  consumed : List Message

section Host

variable {m : ℕ}

def Host.start : Host m := ⟨fun _ => .new, 0, none, fun _ => .shmOpenExcl, .shmOpen, [], []⟩

def Host.setProducer (s : Host m) (p : Fin m) (pc : ProducerPc) : Host m :=
  { s with producers := Function.update s.producers p pc }

def Host.setMemory (s : Host m) (id : ℕ) (q : SharedQueueLayout) : Host m :=
  { s with objects := Function.update s.objects id { s.objects id with memory := q } }

/-- The name is free: `shm_open` with `O_EXCL` makes a new object and binds the name to it. -/
def Host.create (s : Host m) : Host m :=
  { s with
    objects := Function.update s.objects s.count .new
    count := s.count + 1
    name := some s.count }

/-- `try_push_message` by producer `p`: on success it goes on to `next`, otherwise it closes and
    exits with 1. -/
def Host.push (s : Host m) (p : Fin m) (id : ℕ) (a : PushArgs) (next : ProducerPc) : Host m :=
  let r := tryPushMessage (s.objects id).memory a
  { (s.setMemory id r.1).setProducer p (if r.2 then next else .close 1) with
    accepted := s.accepted ++ if r.2 then (a.guard.map PushJob.message).toList else [] }

/-- The next step of producer `p`; `ok` is the outcome of a call to the operating system. -/
def Host.produce (n : QueueSize) (s : Host m) (p : Fin m) (ok : Bool) : Option (Host m) :=
  match s.producers p with
  | .shmOpenExcl =>
    if ok then
      match s.name with
      | none => some (s.create.setProducer p (.ftruncate s.count))
      | some _ => some (s.setProducer p .shmOpen)
    else some (s.setProducer p (.exited 1))
  | .ftruncate id =>
    if ok then
      some { s.setProducer p (.mmap id true) with
        objects := Function.update s.objects id { s.objects id with size := n.bytes } }
    else some { s.setProducer p (.exited 1) with name := none }
  | .shmOpen =>
    match (if ok then s.name else none) with
    | some id => some (s.setProducer p (.mmap id false))
    | none => some (s.setProducer p (.exited 1))
  | .mmap id created =>
    if ok then some (s.setProducer p (if created then .initQueue id else .validate id))
    else some { s.setProducer p (.exited 1) with name := if created then none else s.name }
  | .initQueue id =>
    some ((s.setMemory id (initQueue (s.objects id).memory)).setProducer p (.validate id))
  | .validate id =>
    if queueMemorySize ≤ (s.objects id).size then
      some (s.setProducer p
        (if isQueueValid (s.objects id).memory then .pushNumber id else .close 1))
    else some (s.setProducer p .killed)
  | .pushNumber id => some (s.push p id pushNumber (.pushText id))
  | .pushText id => some (s.push p id pushText (.close 0))
  | .close code => some (s.setProducer p (.exited code))
  | .exited _ | .killed => none

/-- The next step of the consumer. The loop goes on while a message was received, or skipped: then
    `read_index` has grown. -/
def Host.consume (s : Host m) (ok : Bool) : Option (Host m) :=
  match s.consumer with
  | .shmOpen =>
    match (if ok then s.name else none) with
    | some id => some { s with consumer := .mmap id }
    | none => some { s with consumer := .exited 1 }
  | .mmap id => some { s with consumer := if ok then .validate id else .exited 1 }
  | .validate id =>
    if queueMemorySize ≤ (s.objects id).size then
      some { s with
        consumer := if isQueueValid (s.objects id).memory then .drain id else .close false }
    else some { s with consumer := .killed }
  | .drain id =>
    let q := (s.objects id).memory
    let r := tryPopMessage q popText
    some { s.setMemory id r.queue with
      consumed := s.consumed ++ popped q popText
      consumer := if r.popped ∨ q.readIndex < r.queue.readIndex then .drain id else .close true }
  | .close valid => some { s with consumer := if valid then .unlink else .exited 1 }
  | .unlink => some { s with name := none, consumer := .exited 0 }
  | .exited _ | .killed => none

inductive HostAction (m : ℕ) where
  | producer (p : Fin m) (ok : Bool)
  | consumer (ok : Bool)

def Host.step (n : QueueSize) (s : Host m) : HostAction m → Option (Host m)
  | .producer p ok => s.produce n p ok
  | .consumer ok => s.consume ok

/-- The READY messages of the object the name is bound to. -/
def Host.boundMessages (s : Host m) : Multiset Message :=
  match s.name with
  | some id => (s.objects id).memory.readyMessages
  | none => 0

/-- **Every accepted message is consumed, or READY in the object the name is bound to.** -/
def Host.Kept (s : Host m) : Prop :=
  (↑s.accepted : Multiset Message) ≤ ↑s.consumed + s.boundMessages

/-- The push a producer makes next. -/
def ProducerPc.pushes : ProducerPc → Option (ℕ × PushArgs)
  | .pushNumber id => some (id, Hw4.pushNumber)
  | .pushText id => some (id, Hw4.pushText)
  | _ => none

/-- **A step that loses nothing**: a push is accepted by the bound object only, and the consumer
    unlinks an object without READY slots. -/
def Host.Keeps (s : Host m) : HostAction m → Prop
  | .producer p _ => ∀ id a, (s.producers p).pushes = some (id, a) →
      (tryPushMessage (s.objects id).memory a).2 = true → s.name = some id
  | .consumer _ => s.consumer = .unlink → s.boundMessages = 0

/-! ## 3. The invariant -/

/-- The object a producer has created and not yet initialised. -/
def ProducerPc.creates : ProducerPc → Option ℕ
  | .ftruncate id | .mmap id true | .initQueue id => some id
  | _ => none

/-- The object a producer works on. -/
def ProducerPc.maps : ProducerPc → Option ℕ
  | .ftruncate id | .mmap id _ | .initQueue id | .validate id | .pushNumber id | .pushText id =>
    some id
  | _ => none

/-- The object the consumer works on. -/
def ConsumerPc.maps : ConsumerPc → Option ℕ
  | .mmap id | .validate id | .drain id => some id
  | _ => none

/-- Object `id` exists and is a queue. -/
def Host.Valid (s : Host m) (id : ℕ) : Prop :=
  id < s.count ∧ isQueueValid (s.objects id).memory = true

/-- **The invariant of the name and the objects.** -/
structure HostInv (s : Host m) : Prop where
  counted : ∀ id, s.name = some id → id < s.count
  mapped : ∀ p id, (s.producers p).maps = some id → id < s.count
  opened : ∀ id, s.consumer.maps = some id → id < s.count
  creating : ∀ p id, (s.producers p).creates = some id →
    s.name = some id ∧ (s.objects id).memory = .zero
  alone : ∀ p p' id id', (s.producers p).creates = some id →
    (s.producers p').creates = some id' → p = p'
  pushing : ∀ p id a, (s.producers p).pushes = some (id, a) → s.Valid id
  draining : ∀ id, s.consumer = .drain id → s.Valid id
  finishing : s.consumer = .close true ∨ s.consumer = .unlink → ∃ id, s.Valid id
  bound : s.consumer ≠ .exited 0 → ∀ id, s.Valid id → s.name = some id
  conserved : (↑s.accepted : Multiset Message) =
    ↑s.consumed + ∑ id ∈ Finset.range s.count, (s.objects id).memory.readyMessages

/-- No object without a name has a READY slot. -/
def Host.NoneStranded (s : Host m) : Prop :=
  ∀ id < s.count, s.name ≠ some id → (s.objects id).memory.readyMessages = 0

/-- What is not in the bound object is in one without a name. -/
theorem HostInv.kept_iff {s : Host m} (h : HostInv s) : s.Kept ↔ s.NoneStranded := by
  unfold Host.Kept Host.NoneStranded Host.boundMessages
  rw [h.conserved]
  cases hn : s.name with
  | none =>
      rw [add_le_add_iff_left, nonpos_iff_eq_zero, Finset.sum_eq_zero_iff]
      simp
  | some b =>
      have hb : b ∈ Finset.range s.count := Finset.mem_range.mpr (h.counted b hn)
      rw [← Finset.sum_erase_add _ _ hb, add_le_add_iff_left, add_le_iff_nonpos_left,
        nonpos_iff_eq_zero, Finset.sum_eq_zero_iff]
      refine forall_congr' fun id => ?_
      rw [Finset.mem_erase, Finset.mem_range, and_comm, and_imp, ne_comm, Option.some_inj.ne]

theorem hostInv_start : HostInv (Host.start : Host m) where
  counted _ h := by cases h
  mapped _ _ h := by cases h
  opened _ h := by cases h
  creating _ _ h := by cases h
  alone _ _ _ _ h := by cases h
  pushing _ _ _ h := by cases h
  draining _ h := by cases h
  finishing h := by rcases h with h | h <;> cases h
  bound _ _ h := absurd h.1 (Nat.not_lt_zero _)
  conserved := rfl

section Parts

variable {s : Host m}

/-- A producer moves on without touching memory or name. -/
theorem HostInv.setProducer (h : HostInv s) (p : Fin m) (pc : ProducerPc)
    (hmaps : ∀ id, pc.maps = some id → id < s.count)
    (hcreates : ∀ id, pc.creates = some id → (s.producers p).creates = some id)
    (hpushes : ∀ id a, pc.pushes = some (id, a) → s.Valid id) : HostInv (s.setProducer p pc) := by
  have hall : ∀ Q : Fin m → ProducerPc → Prop, Q p pc → (∀ p', Q p' (s.producers p')) →
      ∀ p', Q p' ((s.setProducer p pc).producers p') := by
    intro Q hnew hold p'
    unfold Host.setProducer
    by_cases e : p' = p
    · subst e
      simpa only [Function.update_self] using hnew
    · simpa only [Function.update_of_ne e] using hold p'
  have hcre := hall (fun p' pc' => ∀ id, pc'.creates = some id →
    (s.producers p').creates = some id) hcreates (fun _ _ => id)
  exact ⟨h.counted, hall (fun _ pc' => ∀ id, pc'.maps = some id → id < s.count) hmaps h.mapped,
    h.opened, fun p' id hp => h.creating p' id (hcre p' id hp),
    fun p' p'' id id' h1 h2 => h.alone p' p'' id id' (hcre p' id h1) (hcre p'' id' h2),
    hall (fun _ pc' => ∀ id a, pc'.pushes = some (id, a) → s.Valid id) hpushes h.pushing,
    h.draining, h.finishing, h.bound, h.conserved⟩

/-- The sizes of the objects do not matter. -/
theorem HostInv.resize (h : HostInv s) {f : ℕ → ShmObject}
    (hf : ∀ j, (f j).memory = (s.objects j).memory) : HostInv { s with objects := f } := by
  have hvalid : ∀ j, Host.Valid { s with objects := f } j ↔ s.Valid j := by
    intro j
    unfold Host.Valid
    simp only [hf]
  refine ⟨h.counted, h.mapped, h.opened, fun p j e => ?_, h.alone,
    fun p j a e => (hvalid j).mpr (h.pushing p j a e), fun j e => (hvalid j).mpr (h.draining j e),
    fun e => ?_, fun hc j hj => h.bound hc j ((hvalid j).mp hj), ?_⟩
  · simp only [hf]
    exact h.creating p j e
  · obtain ⟨j, hj⟩ := h.finishing e
    exact ⟨j, (hvalid j).mpr hj⟩
  · simp only [hf]
    exact h.conserved

/-- A producer that is through with its object. -/
theorem HostInv.leave (h : HostInv s) (p : Fin m) {pc : ProducerPc} (hm : pc.maps = none)
    (hc : pc.creates = none) (hp : pc.pushes = none) : HostInv (s.setProducer p pc) := by
  refine h.setProducer p pc (fun id e => ?_) (fun id e => ?_) (fun id a e => ?_)
  · rw [hm] at e
    cases e
  · rw [hc] at e
    cases e
  · rw [hp] at e
    cases e

/-- A producer that goes on with the object it works on. -/
theorem HostInv.goOn (h : HostInv s) (p : Fin m) {pc : ProducerPc} {id : ℕ} (hid : id < s.count)
    (hm : pc.maps = some id) (hc : ∀ j, pc.creates = some j → (s.producers p).creates = some j)
    (hp : ∀ j a, pc.pushes = some (j, a) → s.Valid j) : HostInv (s.setProducer p pc) := by
  refine h.setProducer p pc (fun j e => ?_) hc hp
  rw [hm] at e
  rw [← Option.some.inj e]
  exact hid

/-- There is one creator at a time: when it is through, there is none. -/
theorem HostInv.sole_creator (h : HostInv s) {p : Fin m} {id : ℕ}
    (hp : (s.producers p).creates = some id) {pc : ProducerPc} (hpc : pc.creates = none)
    (p' : Fin m) : ((s.setProducer p pc).producers p').creates = none := by
  unfold Host.setProducer
  by_cases e : p' = p
  · subst e
    simp only [Function.update_self]
    exact hpc
  · simp only [Function.update_of_ne e]
    cases hc : (s.producers p').creates with
    | none => rfl
    | some id' => exact absurd (h.alone p' p id' id hc hp) e

/-- The consumer moves on without touching memory or name. -/
theorem HostInv.setConsumer (h : HostInv s) {pc : ConsumerPc}
    (hopened : ∀ id, pc.maps = some id → id < s.count)
    (hdraining : ∀ id, pc = .drain id → s.Valid id)
    (hfinishing : pc = .close true ∨ pc = .unlink → ∃ id, s.Valid id)
    (hlive : s.consumer ≠ .exited 0) : HostInv { s with consumer := pc } :=
  ⟨h.counted, h.mapped, hopened, h.creating, h.alone, h.pushing, hdraining, hfinishing,
    fun _ => h.bound hlive, h.conserved⟩

/-- A consumer that is through with its object. -/
theorem HostInv.exit (h : HostInv s) {pc : ConsumerPc} (hm : pc.maps = none)
    (hd : ∀ id, pc ≠ .drain id) (hf : pc ≠ .close true ∧ pc ≠ .unlink)
    (hlive : s.consumer ≠ .exited 0) : HostInv { s with consumer := pc } := by
  refine h.setConsumer (fun id e => ?_) (fun id e => absurd e (hd id)) (fun e => ?_) hlive
  · rw [hm] at e
    cases e
  · rcases e with e | e
    · exact absurd e hf.1
    · exact absurd e hf.2

/-- Memory without a byte written is no queue. -/
theorem not_valid_zero {id : ℕ} (h : (s.objects id).memory = .zero) : ¬ s.Valid id := by
  intro ⟨_, hv⟩
  rw [h] at hv
  exact absurd hv (by decide)

theorem HostInv.not_creating (h : HostInv s) {id : ℕ} (hv : s.Valid id)
    (hlive : s.consumer ≠ .exited 0) (p : Fin m) : (s.producers p).creates = none := by
  cases hc : (s.producers p).creates with
  | none => rfl
  | some id' =>
      obtain ⟨hn, hz⟩ := h.creating p id' hc
      have e : some id' = some id := hn.symm.trans (h.bound hlive id hv)
      rw [Option.some.inj e] at hz
      exact absurd hv (not_valid_zero hz)

/-- The name is removed; no object that is a queue may lose it before the consumer is over. -/
theorem HostInv.unlink (h : HostInv s) (hno : ∀ p, (s.producers p).creates = none)
    (hlive : s.consumer ≠ .exited 0 → ∀ id, ¬ s.Valid id) : HostInv { s with name := none } where
  counted _ e := by cases e
  mapped := h.mapped
  opened := h.opened
  creating p id e := by rw [hno p] at e; cases e
  alone := h.alone
  pushing := h.pushing
  draining := h.draining
  finishing := h.finishing
  bound hc id hv := absurd hv (hlive hc id)
  conserved := h.conserved

theorem setMemory_self (s : Host m) (id : ℕ) (q : SharedQueueLayout) :
    ((s.setMemory id q).objects id).memory = q := by
  simp [Host.setMemory]

theorem setMemory_of_ne (s : Host m) {id j : ℕ} (q : SharedQueueLayout) (h : j ≠ id) :
    (s.setMemory id q).objects j = s.objects j := by
  simp [Host.setMemory, h]

/-- A queue of which the meta words stay as they are. -/
theorem valid_setMemory {id : ℕ} {q : SharedQueueLayout}
    (hmeta : q.queueMeta = (s.objects id).memory.queueMeta) (j : ℕ) :
    (s.setMemory id q).Valid j ↔ s.Valid j := by
  refine and_congr Iff.rfl ?_
  by_cases e : j = id
  · subst e
    rw [setMemory_self, isQueueValid_iff, isQueueValid_iff, hmeta]
  · rw [setMemory_of_ne s q e]

/-- A push or a pop on a queue: the meta words stay, and the records follow the memory. -/
theorem HostInv.operate (h : HostInv s) {id : ℕ} {q : SharedQueueLayout} (hv : s.Valid id)
    (hmeta : q.queueMeta = (s.objects id).memory.queueMeta) (acc con : List Message)
    (hcons : (↑acc : Multiset Message) = ↑con + ∑ j ∈ Finset.range s.count,
      ((s.setMemory id q).objects j).memory.readyMessages) :
    HostInv { s.setMemory id q with accepted := acc, consumed := con } where
  counted := h.counted
  mapped := h.mapped
  opened := h.opened
  creating p j hp := by
    obtain ⟨hn, hz⟩ := h.creating p j hp
    have hne : j ≠ id := fun e => not_valid_zero hz (e ▸ hv)
    refine ⟨hn, ?_⟩
    show ((s.setMemory id q).objects j).memory = .zero
    rw [setMemory_of_ne s q hne]
    exact hz
  alone := h.alone
  pushing p j a hp := (valid_setMemory hmeta j).mpr (h.pushing p j a hp)
  draining j hc := (valid_setMemory hmeta j).mpr (h.draining j hc)
  finishing hc := by
    obtain ⟨j, hj⟩ := h.finishing hc
    exact ⟨j, (valid_setMemory hmeta j).mpr hj⟩
  bound hc j hj := h.bound hc j ((valid_setMemory hmeta j).mp hj)
  conserved := hcons

theorem objects_create (p : Fin m) {id : ℕ} (hid : id < s.count) :
    (s.create.setProducer p (.ftruncate s.count)).objects id = s.objects id :=
  Function.update_of_ne (Nat.ne_of_lt hid) ..

/-- A new object is not valid, and the others are as they were. -/
theorem valid_create (p : Fin m) (id : ℕ) :
    (s.create.setProducer p (.ftruncate s.count)).Valid id ↔ s.Valid id := by
  by_cases hid : id < s.count
  · unfold Host.Valid
    rw [objects_create p hid]
    exact and_congr ⟨fun _ => hid, fun _ => Nat.lt_succ_of_lt hid⟩ Iff.rfl
  · have hnew : (s.create.setProducer p (.ftruncate s.count)).objects s.count = .new :=
      Function.update_self ..
    refine ⟨fun hv => ?_, fun hv => absurd hv.1 hid⟩
    have hlt : id < s.count + 1 := hv.1
    obtain rfl : id = s.count := by omega
    exact absurd hv (not_valid_zero (by rw [hnew]; rfl))

/-- Where the name was free, nobody else is creating. -/
theorem HostInv.creates_create (h : HostInv s) (hn : s.name = none) {p p' : Fin m} {id : ℕ}
    (e : ((s.create.setProducer p (.ftruncate s.count)).producers p').creates = some id) :
    p' = p ∧ id = s.count := by
  by_cases e' : p' = p
  · have hself : (s.create.setProducer p (.ftruncate s.count)).producers p = .ftruncate s.count :=
      Function.update_self ..
    rw [e', hself] at e
    exact ⟨e', (Option.some.inj e).symm⟩
  · have hother : (s.create.setProducer p (.ftruncate s.count)).producers p' = s.producers p' :=
      Function.update_of_ne e' ..
    rw [hother] at e
    have hname := (h.creating p' id e).1
    rw [hn] at hname
    cases hname

/-- A new object: it has no READY slot, and nobody but its creator works on it. -/
theorem hostInv_create (h : HostInv s) (hn : s.name = none) (p : Fin m) :
    HostInv (s.create.setProducer p (.ftruncate s.count)) := by
  have hnew : ((s.create.setProducer p (.ftruncate s.count)).objects s.count) = .new :=
    Function.update_self ..
  have hcount : (s.create.setProducer p (.ftruncate s.count)).count = s.count + 1 := rfl
  have hproducers : ∀ p', p' ≠ p →
      (s.create.setProducer p (.ftruncate s.count)).producers p' = s.producers p' :=
    fun p' e => Function.update_of_ne e ..
  have hself : (s.create.setProducer p (.ftruncate s.count)).producers p = .ftruncate s.count :=
    Function.update_self ..
  have hvalid := valid_create (s := s) p
  refine ⟨fun id e => ?_, fun p' id e => ?_, fun id e => ?_, fun p' id e => ?_,
    fun p' p'' id id' e e' => ?_, fun p' id a e => ?_,
    fun id e => (hvalid id).mpr (h.draining id e), fun e => ?_, fun hc id hv => ?_, ?_⟩
  · have e' : s.count = id := Option.some.inj e
    rw [hcount]
    omega
  · rw [hcount]
    by_cases e' : p' = p
    · subst e'
      rw [hself] at e
      have : s.count = id := Option.some.inj e
      omega
    · rw [hproducers p' e'] at e
      have := h.mapped p' id e
      omega
  · have := h.opened id e
    rw [hcount]
    omega
  · obtain ⟨_, rfl⟩ := h.creates_create hn e
    exact ⟨rfl, by rw [hnew]; rfl⟩
  · rw [(h.creates_create hn e).1, (h.creates_create hn e').1]
  · by_cases e' : p' = p
    · subst e'
      rw [hself] at e
      cases e
    · rw [hproducers p' e'] at e
      exact (hvalid id).mpr (h.pushing p' id a e)
  · obtain ⟨id, hv⟩ := h.finishing e
    exact ⟨id, (hvalid id).mpr hv⟩
  · have := h.bound hc id ((hvalid id).mp hv)
    rw [hn] at this
    cases this
  · rw [hcount, Finset.sum_range_succ, hnew, ShmObject.new, readyMessages_zero, add_zero]
    have hsum : ∑ id ∈ Finset.range s.count,
        ((s.create.setProducer p (.ftruncate s.count)).objects id).memory.readyMessages =
        ∑ id ∈ Finset.range s.count, (s.objects id).memory.readyMessages :=
      Finset.sum_congr rfl fun id hid => by rw [objects_create p (Finset.mem_range.mp hid)]
    rw [hsum]
    exact h.conserved

/-- The creator initialises its object, and is a creator no more. -/
theorem hostInv_init (h : HostInv s) {p : Fin m} {id : ℕ}
    (hp : (s.producers p).creates = some id) :
    HostInv ((s.setMemory id .fresh).setProducer p (.validate id)) := by
  obtain ⟨hn, hz⟩ := h.creating p id hp
  have ht : HostInv (s.setProducer p (.validate id)) :=
    h.goOn p (h.counted id hn) rfl nofun nofun
  have hno : ∀ p', ((s.setProducer p (.validate id)).producers p').creates = none :=
    h.sole_creator hp rfl
  have hvalid : ∀ j, s.Valid j → (s.setMemory id .fresh).Valid j := by
    intro j hj
    refine ⟨hj.1, ?_⟩
    by_cases e : j = id
    · subst e
      rw [setMemory_self]
      rfl
    · rw [setMemory_of_ne _ _ e]
      exact hj.2
  show HostInv ((s.setProducer p (.validate id)).setMemory id .fresh)
  refine ⟨ht.counted, ht.mapped, ht.opened, fun p' j e => ?_, fun p' p'' j j' e => ?_,
    fun p' j a e => hvalid j (ht.pushing p' j a e), fun j e => hvalid j (h.draining j e),
    fun e => ?_, fun hc j hj => ?_, ?_⟩
  · exact absurd (e.symm.trans (hno p')) (by simp)
  · exact absurd (e.symm.trans (hno p')) (by simp)
  · obtain ⟨j, hj⟩ := h.finishing e
    exact ⟨j, hvalid j hj⟩
  · by_cases e : j = id
    · rw [e]
      exact hn
    · refine h.bound hc j ⟨hj.1, ?_⟩
      have hj2 := hj.2
      rw [setMemory_of_ne _ _ e] at hj2
      exact hj2
  · have hsum := sum_add_at (S := Finset.range s.count) (d := 0)
      (f := fun j => (s.objects j).memory.readyMessages)
      (g := fun j => ((s.setMemory id .fresh).objects j).memory.readyMessages)
      (Finset.mem_range.mpr (h.counted id hn))
      (fun j hj => by simp only [setMemory_of_ne _ _ hj])
      (by simp only [setMemory_self, hz, add_zero]; rfl)
    rw [add_zero] at hsum
    exact h.conserved.trans (congrArg _ hsum.symm)

/-- The READY messages of all objects after one of them has changed. -/
theorem sum_setMemory (s : Host m) {id : ℕ} (hid : id < s.count) {q : SharedQueueLayout}
    {d : Multiset Message} (hq : q.readyMessages = (s.objects id).memory.readyMessages + d) :
    ∑ j ∈ Finset.range s.count, ((s.setMemory id q).objects j).memory.readyMessages =
      ∑ j ∈ Finset.range s.count, (s.objects j).memory.readyMessages + d :=
  sum_add_at (Finset.mem_range.mpr hid) (fun j hj => by rw [setMemory_of_ne s q hj])
    (by rw [setMemory_self, hq])

/-- Nobody is stranded by an operation on the bound object. -/
theorem noneStranded_setMemory {id : ℕ} (hn : s.name = some id) (q : SharedQueueLayout) :
    (s.setMemory id q).NoneStranded ↔ s.NoneStranded := by
  refine forall_congr' fun j => imp_congr Iff.rfl ?_
  refine imp_congr_right fun hj => ?_
  have hne : j ≠ id := fun e => hj (e ▸ hn)
  rw [setMemory_of_ne s q hne]

/-- State `t` follows `s` by action `a`: the invariant holds in it, and it strands nothing exactly
    when `s` does not and the action meets `Keeps`. -/
structure Host.Follows (s : Host m) (a : HostAction m) (t : Host m) : Prop where
  inv : HostInv t
  stranded : t.NoneStranded ↔ s.NoneStranded ∧ s.Keeps a

/-- A step of a producer that pushes nothing. -/
theorem follows_quiet {p : Fin m} (ok : Bool) (hp : (s.producers p).pushes = none) {t : Host m}
    (ht : HostInv t) (hiff : t.NoneStranded ↔ s.NoneStranded) : s.Follows (.producer p ok) t := by
  refine ⟨ht, hiff.trans (and_iff_left fun id a e => ?_).symm⟩
  rw [hp] at e
  cases e

/-- A new object has the name, and the others had none before. -/
theorem noneStranded_create (hn : s.name = none) (p : Fin m) (pc : ProducerPc) :
    (s.create.setProducer p pc).NoneStranded ↔ s.NoneStranded := by
  constructor
  · intro h0 j hj _
    have h1 := h0 j (Nat.lt_succ_of_lt hj) fun e => Nat.ne_of_lt hj (Option.some.inj e).symm
    simpa [Host.setProducer, Host.create, Nat.ne_of_lt hj] using h1
  · intro h0 j hj hne
    have hj' : j < s.count + 1 := hj
    have hne' : j ≠ s.count := fun e => hne (congrArg some e.symm)
    have h1 := h0 j (by omega) (by rw [hn]; simp)
    simpa [Host.setProducer, Host.create, hne'] using h1

/-- The failure paths of a creator unlink the name: nothing was ever in its object. -/
theorem creator_fails (h : HostInv s) {p : Fin m} {id : ℕ} (ok : Bool)
    (hc : (s.producers p).creates = some id) (hp : (s.producers p).pushes = none) :
    s.Follows (.producer p ok) { s.setProducer p (.exited 1) with name := none } := by
  obtain ⟨hn, hz⟩ := h.creating p id hc
  refine follows_quiet ok hp
    ((h.leave p rfl rfl rfl).unlink (h.sole_creator hc rfl) fun hlive j hv => ?_) ?_
  · have e : some id = some j := hn.symm.trans (h.bound hlive j hv)
    exact not_valid_zero (Option.some.inj e ▸ hz) hv
  · refine forall_congr' fun j => imp_congr Iff.rfl ⟨fun h0 _ => h0 (by simp), fun h0 _ => ?_⟩
    by_cases e : j = id
    · show (s.objects j).memory.readyMessages = 0
      rw [e, hz, readyMessages_zero]
    · exact h0 fun e' => e (Option.some.inj (e'.symm.trans hn))

/-- `ftruncate` gives the object of a creator its size. -/
theorem creator_truncates (h : HostInv s) {p : Fin m} {id : ℕ} (ok : Bool) (bytes : ℕ)
    (hpc : s.producers p = .ftruncate id) :
    s.Follows (.producer p ok) { s.setProducer p (.mmap id true) with
      objects := Function.update s.objects id { s.objects id with size := bytes } } := by
  have hmem : ∀ j, (Function.update s.objects id { s.objects id with size := bytes }
      j).memory = (s.objects j).memory := by
    intro j
    by_cases e : j = id
    · subst e
      rw [Function.update_self]
    · rw [Function.update_of_ne e]
  have ht : HostInv (s.setProducer p (.mmap id true)) :=
    h.goOn p (h.mapped p id (by rw [hpc]; rfl)) rfl (fun j e => by rw [hpc]; exact e) nofun
  refine follows_quiet ok (by rw [hpc]; rfl) (ht.resize hmem) (forall_congr' fun j => ?_)
  simp only [hmem]
  exact Iff.rfl

/-- **A push** keeps the invariant; it strands its message exactly when it is accepted by an object
    that the name is not bound to. -/
theorem host_push (h : HostInv s) {p : Fin m} {id : ℕ} {a : PushArgs} (ok : Bool)
    (next : ProducerPc) (hp : (s.producers p).pushes = some (id, a)) (hjob : a.guard ≠ none)
    (hmaps : ∀ j, next.maps = some j → j = id) (hcreates : next.creates = none)
    (hpushes : ∀ j b, next.pushes = some (j, b) → j = id) :
    s.Follows (.producer p ok) (s.push p id a next) := by
  obtain ⟨job, hg⟩ := Option.ne_none_iff_exists'.mp hjob
  have hv := h.pushing p id a hp
  have hready := readyMessages_push (s.objects id).memory a
  have hkeeps : s.Keeps (.producer p ok) ↔
      ((tryPushMessage (s.objects id).memory a).2 = true → s.name = some id) := by
    refine ⟨fun hk => hk id a hp, fun hk j b e => ?_⟩
    rw [hp] at e
    obtain ⟨rfl, rfl⟩ := Prod.mk.inj (Option.some.inj e)
    exact hk
  constructor
  · have hcons := sum_setMemory s hv.1 hready
    have hop := h.operate hv (queueMeta_push _ a)
      (s.accepted ++ if (tryPushMessage (s.objects id).memory a).2 then
        (a.guard.map PushJob.message).toList else []) s.consumed (by
        rw [hcons, ← Multiset.coe_add, h.conserved, add_assoc]
        congr 2
        split <;> rfl)
    refine hop.setProducer p (if (tryPushMessage (s.objects id).memory a).2 then next
      else .close 1) (fun j e => ?_) (fun j e => ?_) (fun j b e => ?_)
    · split at e
      · rw [hmaps j e]
        exact hv.1
      · cases e
    · split at e
      · rw [hcreates] at e
        cases e
      · cases e
    · split at e
      · rw [hpushes j b e]
        exact (valid_setMemory (queueMeta_push _ a) id).mpr hv
      · cases e
  · rw [hkeeps]
    show (s.setMemory id (tryPushMessage (s.objects id).memory a).1).NoneStranded ↔ _
    by_cases hn : s.name = some id
    · rw [noneStranded_setMemory hn]
      exact (and_iff_left fun _ => hn).symm
    · by_cases hr : (tryPushMessage (s.objects id).memory a).2 = true
      · -- accepted without a name: the message is stranded here
        refine iff_of_false (fun hns => ?_) (fun ⟨_, hk⟩ => hn (hk hr))
        have h0 := hns id hv.1 hn
        rw [setMemory_self, hready, if_pos hr, hg] at h0
        have hm : job.message ∈ (0 : Multiset Message) := by
          rw [← h0]
          exact Multiset.mem_add.mpr (.inr (Multiset.mem_coe.mpr List.mem_cons_self))
        exact absurd hm (Multiset.notMem_zero _)
      · rw [if_neg hr, add_zero] at hready
        refine Iff.trans ?_ (and_iff_left fun hc => absurd hc hr).symm
        refine forall_congr' fun j => imp_congr Iff.rfl (imp_congr_right fun _ => ?_)
        by_cases e : j = id
        · subst e
          rw [setMemory_self, hready]
        · rw [setMemory_of_ne _ _ e]

/-- **A turn of the drain loop** works on the bound object. -/
theorem host_drain (h : HostInv s) {id : ℕ} (hc : s.consumer = .drain id) (again : Prop)
    [Decidable again] :
    HostInv { s.setMemory id (tryPopMessage (s.objects id).memory popText).queue with
      consumed := s.consumed ++ popped (s.objects id).memory popText
      consumer := if again then .drain id else .close true } ∧
    ((s.setMemory id (tryPopMessage (s.objects id).memory popText).queue).NoneStranded ↔
      s.NoneStranded) := by
  have hv := h.draining id hc
  have hlive : s.consumer ≠ .exited 0 := by rw [hc]; simp
  have hn := h.bound hlive id hv
  refine ⟨?_, noneStranded_setMemory hn _⟩
  have hpop := readyMessages_pop (s.objects id).memory popText
  have hcons := sum_add_at (S := Finset.range s.count)
    (f := fun j => ((s.setMemory id (tryPopMessage (s.objects id).memory popText).queue).objects
      j).memory.readyMessages)
    (g := fun j => (s.objects j).memory.readyMessages) (Finset.mem_range.mpr hv.1)
    (fun j hj => by simp only [setMemory_of_ne s _ hj]) (by simp only [setMemory_self]; exact hpop)
  have hop := h.operate hv (queueMeta_pop _ popText) s.accepted
    (s.consumed ++ popped (s.objects id).memory popText) (by
      rw [h.conserved, hcons, ← Multiset.coe_add, add_assoc,
        add_comm (Multiset.ofList (popped _ _))])
  have hv' : Host.Valid { s.setMemory id (tryPopMessage (s.objects id).memory popText).queue with
      accepted := s.accepted
      consumed := s.consumed ++ popped (s.objects id).memory popText } id :=
    (valid_setMemory (queueMeta_pop _ popText) id).mpr hv
  refine hop.setConsumer (fun j e => ?_) (fun j e => ?_) (fun _ => ⟨id, hv'⟩) hlive
  · split at e
    · rw [← Option.some.inj e]
      exact hv.1
    · cases e
  · split at e
    · rw [← ConsumerPc.drain.inj e]
      exact hv'
    · cases e

/-- **Every step of a producer.** -/
theorem host_produce (n : QueueSize) (h : HostInv s) {p : Fin m} {ok : Bool} {s' : Host m}
    (hs : s.produce n p ok = some s') : s.Follows (.producer p ok) s' := by
  cases hpc : s.producers p with
  | shmOpenExcl =>
      have hp : (s.producers p).pushes = none := by rw [hpc]; rfl
      simp only [Host.produce, hpc] at hs
      split at hs
      · split at hs
        next hn =>
          obtain rfl := Option.some.inj hs
          exact follows_quiet ok hp (hostInv_create h hn p) (noneStranded_create hn p _)
        next =>
          obtain rfl := Option.some.inj hs
          exact follows_quiet ok hp (h.leave p rfl rfl rfl) Iff.rfl
      · obtain rfl := Option.some.inj hs
        exact follows_quiet ok hp (h.leave p rfl rfl rfl) Iff.rfl
  | ftruncate id =>
      simp only [Host.produce, hpc] at hs
      split at hs <;> obtain rfl := Option.some.inj hs
      · exact creator_truncates h ok n.bytes hpc
      · exact creator_fails h ok (by rw [hpc]; rfl) (by rw [hpc]; rfl)
  | shmOpen =>
      have hp : (s.producers p).pushes = none := by rw [hpc]; rfl
      simp only [Host.produce, hpc] at hs
      split at hs <;> obtain rfl := Option.some.inj hs
      next id hn =>
        split at hn
        · exact follows_quiet ok hp (h.goOn p (h.counted id hn) rfl nofun nofun) Iff.rfl
        · cases hn
      next => exact follows_quiet ok hp (h.leave p rfl rfl rfl) Iff.rfl
  | mmap id created =>
      have hp : (s.producers p).pushes = none := by rw [hpc]; rfl
      have hid := h.mapped p id (by rw [hpc]; rfl)
      cases created with
      | true =>
          simp only [Host.produce, hpc] at hs
          split at hs <;> obtain rfl := Option.some.inj hs
          · exact follows_quiet ok hp
              (h.goOn p hid rfl (fun j e => by rw [hpc]; exact e) nofun) Iff.rfl
          · exact creator_fails h ok (by rw [hpc]; rfl) hp
      | false =>
          simp only [Host.produce, hpc] at hs
          split at hs <;> obtain rfl := Option.some.inj hs
          · exact follows_quiet ok hp (h.goOn p hid rfl nofun nofun) Iff.rfl
          · exact follows_quiet ok hp (h.leave p rfl rfl rfl) Iff.rfl
  | initQueue id =>
      have hc : (s.producers p).creates = some id := by rw [hpc]; rfl
      simp only [Host.produce, hpc] at hs
      obtain rfl := Option.some.inj hs
      exact follows_quiet ok (by rw [hpc]; rfl) (hostInv_init h hc)
        (noneStranded_setMemory (h.creating p id hc).1 _)
  | validate id =>
      have hp : (s.producers p).pushes = none := by rw [hpc]; rfl
      have hid := h.mapped p id (by rw [hpc]; rfl)
      simp only [Host.produce, hpc] at hs
      split at hs <;> obtain rfl := Option.some.inj hs
      · split
        next hv =>
          refine follows_quiet ok hp (h.goOn p hid rfl nofun fun j a e => ?_) Iff.rfl
          obtain ⟨rfl, _⟩ := Prod.mk.inj (Option.some.inj e)
          exact ⟨hid, hv⟩
        next => exact follows_quiet ok hp (h.leave p rfl rfl rfl) Iff.rfl
      · exact follows_quiet ok hp (h.leave p rfl rfl rfl) Iff.rfl
  | pushNumber id =>
      simp only [Host.produce, hpc] at hs
      obtain rfl := Option.some.inj hs
      exact host_push h ok (.pushText id) (by rw [hpc]; rfl) (by decide)
        (fun j e => (Option.some.inj e).symm) rfl
        (fun j b e => (Prod.mk.inj (Option.some.inj e)).1.symm)
  | pushText id =>
      simp only [Host.produce, hpc] at hs
      obtain rfl := Option.some.inj hs
      exact host_push h ok (.close 0) (by rw [hpc]; rfl) (by decide) nofun rfl nofun
  | close code =>
      simp only [Host.produce, hpc] at hs
      obtain rfl := Option.some.inj hs
      exact follows_quiet ok (by rw [hpc]; rfl) (h.leave p rfl rfl rfl) Iff.rfl
  | exited code => simp only [Host.produce, hpc] at hs; cases hs
  | killed => simp only [Host.produce, hpc] at hs; cases hs

/-- The consumer unlinks the bound object, and strands what is READY in it. -/
theorem host_unlink (h : HostInv s) (ok : Bool) (hpc : s.consumer = .unlink) :
    s.Follows (.consumer ok) { s with name := none, consumer := .exited 0 } := by
  have hlive : s.consumer ≠ .exited 0 := by rw [hpc]; nofun
  obtain ⟨id, hv⟩ := h.finishing (.inr hpc)
  have hn := h.bound hlive id hv
  have hexit : HostInv { s with consumer := .exited 0 } := h.exit rfl nofun (by simp) hlive
  have hbound : s.boundMessages = (s.objects id).memory.readyMessages := by
    unfold Host.boundMessages
    rw [hn]
  refine ⟨hexit.unlink (h.not_creating hv hlive) fun hc => absurd rfl hc, ?_⟩
  constructor
  · intro h0
    refine ⟨fun j hj _ => h0 j hj nofun, fun _ => ?_⟩
    rw [hbound]
    exact h0 id hv.1 nofun
  · intro ⟨h0, hk⟩ j hj _
    by_cases e : j = id
    · rw [e]
      exact hbound.symm.trans (hk hpc)
    · exact h0 j hj fun e' => e (Option.some.inj (e'.symm.trans hn))

/-- **Every step of the consumer.** -/
theorem host_consume (h : HostInv s) {ok : Bool} {s' : Host m} (hs : s.consume ok = some s') :
    s.Follows (.consumer ok) s' := by
  have hquiet : ∀ {t : Host m}, s.consumer ≠ .unlink → HostInv t →
      (t.NoneStranded ↔ s.NoneStranded) → s.Follows (.consumer ok) t :=
    fun hu ht hiff => ⟨ht, hiff.trans (and_iff_left fun e => absurd e hu).symm⟩
  -- on the way to an exit with a failure
  have hexit : ∀ {pc : ConsumerPc}, s.consumer ≠ .unlink → s.consumer ≠ .exited 0 →
      pc.maps = none → (∀ id, pc ≠ .drain id) → pc ≠ .close true ∧ pc ≠ .unlink →
      s.Follows (.consumer ok) { s with consumer := pc } :=
    fun hu hlive hm hd hf => hquiet hu (h.exit hm hd hf hlive) Iff.rfl
  cases hpc : s.consumer with
  | shmOpen =>
      have hlive : s.consumer ≠ .exited 0 := by rw [hpc]; nofun
      have hu : s.consumer ≠ .unlink := by rw [hpc]; nofun
      simp only [Host.consume, hpc] at hs
      split at hs <;> obtain rfl := Option.some.inj hs
      next id hn =>
        refine hquiet hu (h.setConsumer (fun j e => ?_) nofun nofun hlive) Iff.rfl
        rw [← Option.some.inj e]
        split at hn
        · exact h.counted id hn
        · cases hn
      next => exact hexit hu hlive rfl nofun (by simp)
  | mmap id =>
      have hlive : s.consumer ≠ .exited 0 := by rw [hpc]; nofun
      have hu : s.consumer ≠ .unlink := by rw [hpc]; nofun
      have hid := h.opened id (by rw [hpc]; rfl)
      simp only [Host.consume, hpc] at hs
      obtain rfl := Option.some.inj hs
      split
      · refine hquiet hu (h.setConsumer (fun j e => ?_) nofun nofun hlive) Iff.rfl
        rw [← Option.some.inj e]
        exact hid
      · exact hexit hu hlive rfl nofun (by simp)
  | validate id =>
      have hlive : s.consumer ≠ .exited 0 := by rw [hpc]; nofun
      have hu : s.consumer ≠ .unlink := by rw [hpc]; nofun
      have hid := h.opened id (by rw [hpc]; rfl)
      simp only [Host.consume, hpc] at hs
      split at hs <;> obtain rfl := Option.some.inj hs
      · split
        next hv =>
          refine hquiet hu (h.setConsumer (fun j e => ?_) (fun j e => ?_) nofun hlive) Iff.rfl
          · rw [← Option.some.inj e]
            exact hid
          · rw [← ConsumerPc.drain.inj e]
            exact ⟨hid, hv⟩
        next => exact hexit hu hlive rfl nofun (by simp)
      · exact hexit hu hlive rfl nofun (by simp)
  | drain id =>
      simp only [Host.consume, hpc] at hs
      obtain rfl := Option.some.inj hs
      obtain ⟨hI, hiff⟩ := host_drain h hpc
        ((tryPopMessage (s.objects id).memory popText).popped ∨
          (s.objects id).memory.readIndex <
            (tryPopMessage (s.objects id).memory popText).queue.readIndex)
      exact hquiet (by rw [hpc]; nofun) hI hiff
  | close valid =>
      have hlive : s.consumer ≠ .exited 0 := by rw [hpc]; nofun
      have hu : s.consumer ≠ .unlink := by rw [hpc]; nofun
      simp only [Host.consume, hpc] at hs
      obtain rfl := Option.some.inj hs
      cases valid with
      | true =>
          exact hquiet hu
            (h.setConsumer nofun nofun (fun _ => h.finishing (.inl hpc)) hlive) Iff.rfl
      | false => exact hexit hu hlive rfl nofun (by simp)
  | unlink =>
      simp only [Host.consume, hpc] at hs
      obtain rfl := Option.some.inj hs
      exact host_unlink h ok hpc
  | exited code => simp only [Host.consume, hpc] at hs; cases hs
  | killed => simp only [Host.consume, hpc] at hs; cases hs

end Parts

theorem host_step (n : QueueSize) {s s' : Host m} {a : HostAction m} (h : HostInv s)
    (hs : s.step n a = some s') : s.Follows a s' := by
  cases a with
  | producer p ok => exact host_produce n h hs
  | consumer ok => exact host_consume h hs

/-! ## 4. What the clean-up keeps -/

/-- **Exactly the runs whose steps all lose nothing end with every accepted message consumed or
    READY in the object the name is bound to.** -/
theorem kept_iff_keeps (n : QueueSize) {as : List (HostAction m)} {s : Host m}
    (h : run (Host.step n) .start as = some s) :
    s.Kept ↔ Along (Host.step n) Host.Keeps .start as := by
  have hI : HostInv s := (reach_run h).invariant hostInv_start
    fun _ _ _ hI _ hs => (host_step n hI hs).1
  rw [hI.kept_iff, run_along_iff (I := HostInv) (P := Host.NoneStranded) (C := Host.Keeps)
    (fun _ _ _ hI hs => (host_step n hI hs).1) (fun _ _ _ hI hs => (host_step n hI hs).2)
    hostInv_start h]
  exact and_iff_right fun id hid => absurd hid (Nat.not_lt_zero id)

end Host

/-- A run of `producer_hw4` that is over. -/
def ProducerPc.over : ProducerPc → Bool
  | .exited _ | .killed => true
  | _ => false

def ConsumerPc.over : ConsumerPc → Bool
  | .exited _ | .killed => true
  | _ => false

/-- **A final state**: all runs are over. -/
def Host.over {m : ℕ} (s : Host m) : Bool := s.consumer.over && decide (∀ p, (s.producers p).over)

/-- `k` steps of producer `p` without a failure. -/
def producing {m : ℕ} (p : Fin m) (k : ℕ) : List (HostAction m) :=
  List.replicate k (.producer p true)

/-- `k` steps of the consumer without a failure. -/
def consuming (m : ℕ) (k : ℕ) : List (HostAction m) := List.replicate k (.consumer true)

/-- A producer, and after it the consumer. -/
def oneAfterTheOther : List (HostAction 1) := producing 0 8 ++ consuming 1 8

theorem kept_iff_keeps_one_after_the_other :
    ∃ s, run (Host.step .default) (.start : Host 1) oneAfterTheOther = some s ∧ s.over = true ∧
      s.accepted = s.consumed ∧
      (s.Kept ↔ Along (Host.step .default) Host.Keeps (.start : Host 1) oneAfterTheOther) := by
  have h : (run (Host.step .default) (.start : Host 1) oneAfterTheOther).map
      (fun s => decide (s.over = true ∧ s.accepted = s.consumed)) = some true := by decide +kernel
  obtain ⟨s, hs, hp⟩ := Option.map_eq_some_iff.mp h
  obtain ⟨ho, he⟩ := of_decide_eq_true hp
  exact ⟨s, hs, ho, he, kept_iff_keeps .default hs⟩

/-- The consumer has found the queue empty and is about to close it; a second producer opens it,
    pushes both messages and exits; the consumer closes and unlinks. -/
def pushedBeforeUnlink : List (HostAction 2) :=
  producing 0 8 ++ consuming 2 6 ++ producing 1 7 ++ consuming 2 2

/-- The second producer has mapped the object; the consumer drains, closes and unlinks; the second
    producer pushes both messages and exits. -/
def pushedAfterUnlink : List (HostAction 2) :=
  producing 0 8 ++ producing 1 3 ++ consuming 2 8 ++ producing 1 4

/-- More messages accepted than consumed, and no name left. -/
theorem not_kept {m : ℕ} {s : Host m} (hn : s.name = none)
    (hlt : s.consumed.length < s.accepted.length) : ¬ s.Kept := by
  intro h
  have hc := Multiset.card_le_card h
  unfold Host.boundMessages at hc
  rw [hn, add_zero, Multiset.coe_card, Multiset.coe_card] at hc
  omega

/-- **The clean-up loses messages**: in both runs all programs exit with 0, both messages of the
    second producer were accepted, and nobody will ever find them. -/
theorem cleanup_loses_messages :
    (∃ s, run (Host.step .default) (.start : Host 2) pushedBeforeUnlink = some s ∧
      s.over = true ∧ s.accepted.length = 4 ∧ s.consumed.length = 2 ∧ ¬ s.Kept) ∧
    (∃ s, run (Host.step .default) (.start : Host 2) pushedAfterUnlink = some s ∧
      s.over = true ∧ s.accepted.length = 4 ∧ s.consumed.length = 2 ∧ ¬ s.Kept) := by
  have lost : ∀ as, (run (Host.step .default) (.start : Host 2) as).map
      (fun s => decide (s.name = none ∧ s.over = true ∧ s.accepted.length = 4 ∧
        s.consumed.length = 2)) = some true →
      ∃ s, run (Host.step .default) (.start : Host 2) as = some s ∧
        s.over = true ∧ s.accepted.length = 4 ∧ s.consumed.length = 2 ∧ ¬ s.Kept := by
    intro as h
    obtain ⟨s, hs, hp⟩ := Option.map_eq_some_iff.mp h
    obtain ⟨hn, ho, ha, hc⟩ := of_decide_eq_true hp
    exact ⟨s, hs, ho, ha, hc, not_kept hn (by omega)⟩
  exact ⟨lost _ (by decide +kernel), lost _ (by decide +kernel)⟩

end HseMultithreading.Hw4
