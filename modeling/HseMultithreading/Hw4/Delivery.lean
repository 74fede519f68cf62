/-
  File:      HseMultithreading/Hw4/Delivery.lean
  Subject:   EXACTLY-ONCE, UNTORN DELIVERY in the hw4 queue: any number of producers and one
             consumer, in any interleaving.

  * `Inv` -- the phases of all slots, together with the records: the published entries are the
    consumed ones and the pending ones (`bag`), what was handed to the consumer's caller is what
    was published (`faithful`), and a pop that is about to return `true` has it in the caller's
    memory (`handed`).
  * `inv_reach` -- it holds in every reachable state.
  * `exactly_once_untorn` -- the law of delivery, over messages: read off the slots, not off the
    observer's records.
  * `no_residue` -- no byte of a consumed message is left in a slot, EMPTY or READY.
-/
import HseMultithreading.Lib.Bag
import HseMultithreading.Hw4.Ownership

namespace HseMultithreading.Hw4

open StepSystem Bag

/-! ## 1. The invariant -/

/-- The entry a READY slot stands for. -/
def System.pending (s : System) (i : Fin queueCapacity) : Option Entry :=
  if (s.queue.slots i).state = SlotState.ready.code then some (s.history.owner i) else none

/-- What the observer knows of a pop that is about to return `true`: the last message consumed
    was delivered, and the caller's memory holds it. -/
def PopPc.Handed (consumed : List Consumed) : PopPc → Prop
  | .storeIndex job _ hd => hd.header.type = job.expected →
      ∃ c, consumed.getLast? = some c ∧ c.out = some job.delivered
  | .done job true => ∃ c, consumed.getLast? = some c ∧ c.out = some job.delivered
  | _ => True

/-- **The invariant of the step machine.** -/
structure Inv (s : System) : Prop where
  phase : ∀ i, SlotPhase s i
  cursor : ∀ pc index, s.consumer = some pc → pc.cursor = some index → s.queue.readIndex = index
  bag : (s.history.published : Multiset Entry) =
    ↑(s.history.consumed.map (·.entry)) + bagOf s.pending
  faithful : ∀ c ∈ s.history.consumed, ∀ m, c.out = some m → m = c.entry.message
  handed : ∀ pc, s.consumer = some pc → pc.Handed s.history.consumed

theorem inv_start (memory : SharedQueueLayout) : Inv (.start memory) where
  phase _ := .free rfl (fun _ ⟨_, h, _⟩ => by cases h) (fun ⟨_, h, _⟩ => by cases h)
  cursor _ _ h := by cases h
  bag := by
    have hp : (System.start memory).pending = fun _ => none := by
      funext i
      exact if_neg (by show ¬ SlotState.empty.code = SlotState.ready.code; decide)
    rw [hp, bagOf_none]
    rfl
  faithful _ h := absurd h List.not_mem_nil
  handed _ h := by cases h

/-! ## 2. Every step keeps it -/

section Steps

variable {s : System}

/-- A call, a halt and everything else that leaves queue, consumer and records alone. -/
theorem Inv.outside (h : Inv s) {s' : System} (hq : s'.queue = s.queue)
    (hc : s'.consumer = s.consumer) (hph : ∀ i, SlotPhase s' i)
    (hw : s'.history.owner = s.history.owner)
    (hpub : s'.history.published = s.history.published)
    (hcon : s'.history.consumed = s.history.consumed) : Inv s' where
  phase := hph
  cursor pc index h1 h2 := by rw [hq]; exact h.cursor pc index (hc ▸ h1) h2
  bag := by
    have hp : s'.pending = s.pending := by
      funext i
      simp only [System.pending, hq, hw]
    rw [hp, hpub, hcon]
    exact h.bag
  faithful c hcm := h.faithful c (hcon ▸ hcm)
  handed pc h1 := by rw [hcon]; exact h.handed pc (hc ▸ h1)

theorem inv_callPush (h : Inv s) {p : ℕ} (hp : s.producers p = none) (a : PushArgs) :
    Inv (s.callPush p a) := by
  refine h.outside rfl rfl (fun i => ?_) rfl rfl rfl
  refine (h.phase i).frame rfl rfl ?_ (fun _ _ => Iff.rfl) (fun _ => rfl)
  refine update_producer_iff (fun pc h' => ?_) (fun pc h' => ?_)
  · rw [hp] at h'
    cases h'
  · obtain rfl := Option.some.inj h'
    intro e
    unfold PushArgs.enter at e
    split at e <;> cases e

theorem inv_halt (h : Inv s) (p : ℕ) : Inv (s.halt p) := by
  refine h.outside rfl rfl (fun i => ?_) rfl rfl rfl
  exact (h.phase i).frame rfl rfl (fun _ _ _ => Iff.rfl) (fun _ _ => Iff.rfl) (fun _ => rfl)

theorem enter_pop (a : PopArgs) :
    a.enter.cursor = none ∧ a.enter.holds = none ∧ ∀ l, a.enter.Handed l := by
  unfold PopArgs.enter
  split <;> exact ⟨rfl, rfl, fun _ => trivial⟩

theorem inv_callPop (h : Inv s) (hc : s.consumer = none) (a : PopArgs) : Inv (s.callPop a) where
  phase i := by
    refine (h.phase i).frame rfl rfl (fun _ _ _ => Iff.rfl) ?_ ?_
    · intro pc hi
      rw [hc]
      refine ⟨fun h' => ?_, fun h' => by cases h'⟩
      obtain rfl := Option.some.inj h'
      rw [(enter_pop a).2.1] at hi
      cases hi
    · intro ⟨pc, h1, _⟩
      rw [hc] at h1
      cases h1
  cursor pc index h1 h2 := by
    obtain rfl := Option.some.inj h1
    rw [(enter_pop a).1] at h2
    cases h2
  bag := h.bag
  faithful := h.faithful
  handed pc h1 := by
    obtain rfl := Option.some.inj h1
    exact (enter_pop a).2.2 _

/-- A push step moves READY entries only when it publishes. -/
theorem pending_produce (h : Inv s) {p : ℕ} {pc : PushPc} (hpc : s.producers p = some pc)
    (hnp : ∀ job i k, pc = .copyByte job i k → k < job.length) :
    (s.produce p pc).pending = s.pending ∧
      (s.history.produce p pc).published = s.history.published := by
  have hkeep : ∀ i, pc.touches ≠ some i → (s.produce p pc).pending i = s.pending i := by
    intro i ht
    simp only [System.pending, System.produce, pushStep_slots _ ht, produce_owner _ _ ht]
  -- a slot that is WRITING, EMPTY or refused stands for no entry before or after
  have hnone : ∀ i, pc.touches = some i → (s.produce p pc).pending i = s.pending i := by
    intro i ht
    have hi := h.phase i
    cases pc with
    | fetchAdd job => cases ht
    | compareExchange job index =>
        obtain rfl := Option.some.inj ht
        by_cases he : (s.queue.slots (getSlot index)).state = SlotState.empty.code
        · simp [System.pending, System.produce, pushStep_claim he, he]
        · simp only [System.pending, System.produce, pushStep_refused he, History.produce]
    | putType job j =>
        obtain rfl := Option.some.inj ht
        have hw := (hi.owned hpc rfl).1.state
        simp [System.pending, System.produce, pushStep, hw]
    | putLength job j =>
        obtain rfl := Option.some.inj ht
        have hw := (hi.owned hpc rfl).1.state
        simp [System.pending, System.produce, pushStep, hw]
    | copyByte job j k =>
        obtain rfl := Option.some.inj ht
        have hw := (hi.owned hpc rfl).1.state
        simp [System.pending, System.produce, pushStep_copy (hnp job _ k rfl), hw]
    | done pushed => cases ht
  refine ⟨funext fun i => ?_, ?_⟩
  · by_cases ht : pc.touches = some i
    · exact hnone i ht
    · exact hkeep i ht
  · cases pc with
    | copyByte job i k => rw [produce_copy (hnp job i k rfl)]
    | done pushed => cases pushed <;> rfl
    | _ => rfl

/-- The READY store adds one entry to the published ones and to the pending ones. -/
theorem bag_publish (h : Inv s) {p : ℕ} {job : PushJob} {i : Fin queueCapacity} {k : ℕ}
    (hpc : s.producers p = some (.copyByte job i k)) (hk : ¬ k < job.length) :
    bagOf (s.produce p (.copyByte job i k)).pending =
      bagOf s.pending + {s.history.entry p job} := by
  refine bagOf_fill (i := i) (fun j hj => ?_) ?_ ?_
  · have ht : (PushPc.copyByte job i k).touches ≠ some j := fun e => hj (Option.some.inj e).symm
    simp only [System.pending, System.produce, pushStep_slots _ ht, produce_owner _ _ ht]
  · have hw := ((h.phase i).owned hpc rfl).1.state
    simp [System.pending, hw]
  · simp [System.pending, System.produce, pushStep_publish hk, produce_publish hk]

theorem pushStep_readIndex (q : SharedQueueLayout) (pc : PushPc) :
    (pushStep q pc).1.readIndex = q.readIndex := by
  cases pc with
  | compareExchange job index => simp only [pushStep]; split <;> rfl
  | copyByte job i k => simp only [pushStep]; split <;> rfl
  | _ => rfl

theorem inv_produce (h : Inv s) {p : ℕ} {pc : PushPc} (hpc : s.producers p = some pc) :
    Inv (s.produce p pc) where
  phase := phase_produce h.phase hpc
  cursor pc' index h1 h2 := (pushStep_readIndex _ _).trans (h.cursor pc' index h1 h2)
  bag := by
    show ((s.history.produce p pc).published : Multiset Entry) =
      ↑((s.history.produce p pc).consumed.map (·.entry)) + _
    rw [(produce_observed _ _ _).2]
    by_cases hpub : ∃ job i k, pc = .copyByte job i k ∧ ¬ k < job.length
    · obtain ⟨job, i, k, rfl, hk⟩ := hpub
      rw [bag_publish h hpc hk, produce_publish hk, ← add_assoc, ← h.bag, ← Multiset.coe_singleton,
        Multiset.coe_add]
    · obtain ⟨h1, h2⟩ := pending_produce h hpc fun job i k e =>
        Classical.not_not.mp fun hk => hpub ⟨job, i, k, e, hk⟩
      rw [h1, h2]
      exact h.bag
  faithful c hc := h.faithful c ((produce_observed s.history p pc).2 ▸ hc)
  handed pc' h1 := by
    show pc'.Handed (s.history.produce p pc).consumed
    rw [(produce_observed _ _ _).2]
    exact h.handed pc' h1

theorem popStep_cursor {q : SharedQueueLayout} {pc pc' : PopPc} {index : UInt64}
    (h : (popStep q pc).2 = some pc') (hc : pc'.cursor = some index)
    (hr : ∀ index, pc.cursor = some index → q.readIndex = index) :
    (popStep q pc).1.readIndex = index := by
  have hne : ∀ job index' hd, pc ≠ .storeIndex job index' hd := by
    rintro job index' hd rfl
    obtain rfl := Option.some.inj h
    cases hc
  rw [(popStep_effect q pc).readIndex hne]
  exact (popStep_next h).cursor hc hr

/-- A pop step is the release of its slot, or it leaves the READY entries and the records of
    consumed messages as they are. -/
theorem pending_consume (s : System) {pc : PopPc}
    (hnr : ∀ job index hd k, pc = .clearByte job index hd k → k < maxPayloadSize) :
    (s.consume pc).pending = s.pending ∧
      (s.history.consume s.queue pc).consumed = s.history.consumed := by
  have hstate := (popStep_effect s.queue pc).state hnr
  refine ⟨funext fun i => ?_, ?_⟩
  · simp only [System.pending, System.consume, hstate, consume_owner]
  · cases pc with
    | loadState job index => simp only [History.consume]; split <;> rfl
    | clearByte job index hd k => rw [consume_clear (hnr job index hd k rfl)]
    | _ => rfl

/-- The EMPTY store takes the entry of its slot out of the pending ones. -/
theorem bag_release (h : Inv s) {job : PopJob} {index : UInt64} {hd : FitHeader} {k : ℕ}
    (hpc : s.consumer = some (.clearByte job index hd k)) (hk : ¬ k < maxPayloadSize) :
    bagOf s.pending = bagOf (s.consume (.clearByte job index hd k)).pending +
      {s.history.owner (getSlot index)} := by
  refine bagOf_fill (i := getSlot index) (fun j hj => ?_) ?_ ?_
  · have ht : (PopPc.clearByte job index hd k).cursor.map getSlot ≠ some j :=
      fun e => hj (Option.some.inj e).symm
    simp only [System.pending, System.consume, popStep_slots _ ht, consume_owner]
  · simp [System.pending, System.consume, popStep_release hk]
  · obtain ⟨sent, hdr, _⟩ := (h.phase (getSlot index)).held hpc rfl
    simp only [System.pending, hdr.state, if_true]

/-- What the EMPTY store writes down: the entry of the slot, and for a matching type the message
    in the caller's memory, which is the message of the entry. -/
theorem consumed_release (h : Inv s) {job : PopJob} {index : UInt64} {hd : FitHeader} {k : ℕ}
    (hpc : s.consumer = some (.clearByte job index hd k)) (hk : ¬ k < maxPayloadSize) :
    (s.history.consume s.queue (.clearByte job index hd k)).consumed =
      s.history.consumed ++ [⟨s.history.owner (getSlot index),
        if hd.header.type = job.expected then some job.delivered else none⟩] ∧
    (hd.header.type = job.expected →
      job.delivered = (s.history.owner (getSlot index)).message) := by
  obtain ⟨sent, ⟨hg, _, _⟩, hm, hob, _⟩ := (h.phase (getSlot index)).held hpc rfl
  constructor
  · rw [consume_release hk, hob, ← hm]
  · intro e
    rw [hm]
    exact hg.2 e

theorem inv_consume (h : Inv s) {pc : PopPc} (hpc : s.consumer = some pc) :
    Inv (s.consume pc) := by
  have hph := phase_consume h.phase hpc
  have hcur : ∀ pc' index, (s.consume pc).consumer = some pc' → pc'.cursor = some index →
      (s.consume pc).queue.readIndex = index :=
    fun pc' index h1 h2 => popStep_cursor h1 h2 fun index' h3 => h.cursor pc index' hpc h3
  by_cases hrel : ∃ job index hd k, pc = .clearByte job index hd k ∧ ¬ k < maxPayloadSize
  · obtain ⟨job, index, hd, k, rfl, hk⟩ := hrel
    obtain ⟨hcon, hdel⟩ := consumed_release h hpc hk
    refine ⟨hph, hcur, ?_, fun c hc m hm => ?_, fun pc' h1 => ?_⟩
    · show ((s.history.consume s.queue _).published : Multiset Entry) =
        ↑((s.history.consume s.queue _).consumed.map (·.entry)) + _
      rw [hcon, (consume_owner _ _ _).2, h.bag, bag_release h hpc hk]
      simp only [List.map_append, List.map_singleton, ← Multiset.coe_add, Multiset.coe_singleton]
      rw [add_assoc, add_comm {s.history.owner (getSlot index)}]
    · have hc' : c ∈ (s.history.consume s.queue (.clearByte job index hd k)).consumed := hc
      rw [hcon] at hc'
      rcases List.mem_append.mp hc' with hc' | hc'
      · exact h.faithful c hc' m hm
      · obtain rfl := List.mem_singleton.mp hc'
        simp only at hm ⊢
        split at hm
        · rename_i e
          rw [← hdel e]
          exact (Option.some.inj hm).symm
        · cases hm
    · have h1' : (popStep s.queue (.clearByte job index hd k)).2 = some pc' := h1
      rw [popStep_release hk] at h1'
      obtain rfl := Option.some.inj h1'
      intro e
      refine ⟨⟨s.history.owner (getSlot index), some job.delivered⟩, ?_, rfl⟩
      show (s.history.consume s.queue _).consumed.getLast? = _
      rw [hcon, if_pos e, List.getLast?_append, List.getLast?_singleton]
      rfl
  · obtain ⟨h1, h2⟩ := pending_consume s fun job index hd k e =>
      Classical.not_not.mp fun hk => hrel ⟨job, index, hd, k, e, hk⟩
    refine ⟨hph, hcur, ?_, fun c hc => ?_, fun pc' h3 => ?_⟩
    · show ((s.history.consume s.queue pc).published : Multiset Entry) =
        ↑((s.history.consume s.queue pc).consumed.map (·.entry)) + _
      rw [h1, h2, (consume_owner _ _ _).2]
      exact h.bag
    · have hc' : c ∈ (s.history.consume s.queue pc).consumed := hc
      rw [h2] at hc'
      exact h.faithful c hc'
    · show pc'.Handed (s.history.consume s.queue pc).consumed
      rw [h2]
      have h0 := h.handed pc hpc
      -- only the index store leads to a state that has something to say
      cases popStep_next h3 with
      | loads | refuses => trivial
      | goes _ _ _ hi _ => cases pc' <;> trivial
      | releases job index hd k hk => exact absurd ⟨job, index, hd, k, rfl, hk⟩ hrel
      | returns job index hd =>
          by_cases e : hd.header.type = job.expected
          · simp only [e, decide_true]
            exact h0 e
          · simp only [e, decide_false]
            trivial

/-- **Every step keeps the invariant.** -/
theorem inv_step {s s' : System} {a : Action} (h : Inv s) (hs : s.step a = some s') : Inv s' := by
  obtain ⟨p, args, _, _, hp, rfl⟩ | ⟨p, pc, _, _, hp, rfl⟩ | ⟨args, _, hc, rfl⟩ |
    ⟨pc, _, hc, rfl⟩ | ⟨p, _, rfl⟩ := step_cases hs
  · exact inv_callPush h hp args
  · exact inv_produce h hp
  · exact inv_callPop h hc args
  · exact inv_consume h hc
  · exact inv_halt h p

end Steps

/-- **The invariant holds in every reachable state.** -/
theorem inv_reach {memory : SharedQueueLayout} {C : System → Action → Prop} {s : System}
    (h : ReachWhere System.step C (.start memory) s) : Inv s :=
  h.invariant (inv_start memory) fun _ _ _ hI _ hs => inv_step hI hs

/-! ## 3. The law of delivery -/

/-- The message of a READY slot; one the consumer still copies or clears counts with the content
    it had when the consumer observed READY. -/
def System.readyMessage (s : System) (i : Fin queueCapacity) : Option Message :=
  if (s.queue.slots i).state = SlotState.ready.code then
    some (if s.consumer.bind PopPc.holds = some i then s.history.observed
      else (s.queue.slots i).message)
  else none

theorem readyMessage_eq {s : System} (h : Inv s) (i : Fin queueCapacity) :
    s.readyMessage i = (s.pending i).map Entry.message := by
  unfold System.readyMessage System.pending
  by_cases hr : (s.queue.slots i).state = SlotState.ready.code
  · rw [if_pos hr, if_pos hr, Option.map_some]
    by_cases hh : s.consumer.bind PopPc.holds = some i
    · obtain ⟨pc, hpc, hi⟩ := Option.bind_eq_some_iff.mp hh
      obtain ⟨sent, _, hm, ho, _⟩ := (h.phase i).held hpc hi
      rw [if_pos hh, ho, hm]
    · have hc : ¬ s.Held i := fun ⟨pc, hpc, hi⟩ => hh (by rw [hpc]; exact hi)
      obtain ⟨sent, hs, hm, _⟩ := (h.phase i).of_ready hr hc
      rw [if_neg hh, hs, sent.message_fill, hm]
  · rw [if_neg hr, if_neg hr]
    rfl

/-- The published messages are the consumed ones and those of the READY slots. -/
theorem Inv.messages {s : System} (h : Inv s) :
    (↑(s.history.published.map Entry.message) : Multiset Message) =
      ↑(s.history.consumed.map (·.entry.message)) + bagOf s.readyMessage := by
  have hb := congrArg (Multiset.map Entry.message) h.bag
  rw [Multiset.map_add, bagOf_map, Multiset.map_coe, Multiset.map_coe, List.map_map] at hb
  rw [hb]
  congr 1
  exact congrArg bagOf (funext fun i => (readyMessage_eq h i).symm)

/-- **Exactly-once, untorn delivery.** In every reachable state the messages whose producer has
    executed the READY store are, as a multiset, the messages the consumer has consumed together
    with the messages of the READY slots; what a matching pop copied out, header and bytes, is
    the message it consumed; and a pop that returns `true` returns with that in the caller's
    memory. -/
theorem exactly_once_untorn (memory : SharedQueueLayout) {s : System}
    (h : Reach System.step (.start memory) s) :
    (↑(s.history.published.map Entry.message) : Multiset Message) =
      ↑(s.history.consumed.map (·.entry.message)) + bagOf s.readyMessage ∧
    (∀ c ∈ s.history.consumed, ∀ m, c.out = some m → m = c.entry.message) ∧
    (∀ job, s.consumer = some (.done job true) →
      ∃ c, s.history.consumed.getLast? = some c ∧ c.entry.message = job.delivered) := by
  have hI := inv_reach h
  refine ⟨hI.messages, hI.faithful, fun job hj => ?_⟩
  obtain ⟨c, hc, ho⟩ := hI.handed _ hj
  exact ⟨c, hc, (hI.faithful c (List.mem_of_getLast? hc) _ ho).symm⟩

/-- Two bytes. -/
def twoBytes : PushArgs := ⟨false, .text, some fun j => UInt8.ofNat (72 + j), 2⟩

/-- Producer 0 is in the middle of its message, producer 1 has published one, and the consumer has
    observed READY. -/
def midway : List Action :=
  [.push 1 oneByte, .produce 1, .push 0 twoBytes, .produce 0, .produce 1, .produce 0, .produce 1,
    .produce 0, .produce 1, .produce 0, .produce 1, .produce 0, .produce 1, .pop popText, .consume,
    .consume]

/-- The message in the hands of a caller whose pop is about to return `true`. -/
def PopPc.returns : PopPc → Option Message
  | .done job true => some job.delivered
  | _ => none

/-- The consumer goes on with the message of producer 1 to the end of its call; meanwhile producer 0
    publishes the second message. -/
def firstDelivered : List Action :=
  midway ++ List.replicate 100 Action.consume ++ List.replicate 2 (Action.produce 0) ++
    List.replicate 164 Action.consume

/-- The law with one message in the hands of the caller and one in its slot. -/
theorem exactly_once_untorn_firstDelivered :
    ∃ s, Reach System.step (.start .fresh) s ∧
      s.consumer.bind PopPc.returns = some ⟨1, 1, [65]⟩ ∧
      s.history.published.map (·.message.bytes) = [[65], [72, 73]] ∧
      s.history.consumed.map (·.entry.message.bytes) = [[65]] ∧
      (↑(s.history.published.map Entry.message) : Multiset Message) =
        ↑(s.history.consumed.map (·.entry.message)) + bagOf s.readyMessage ∧
      (∀ c ∈ s.history.consumed, ∀ m, c.out = some m → m = c.entry.message) ∧
      (∀ job, s.consumer = some (.done job true) →
        ∃ c, s.history.consumed.getLast? = some c ∧ c.entry.message = job.delivered) := by
  obtain ⟨s, hs, hp⟩ := reach_of_run System.step (fun _ _ => true) (.start .fresh) firstDelivered
    (fun s => decide (s.consumer.bind PopPc.returns = some ⟨1, 1, [65]⟩ ∧
      s.history.published.map (·.message.bytes) = [[65], [72, 73]] ∧
      s.history.consumed.map (·.entry.message.bytes) = [[65]])) (by decide +kernel)
  obtain ⟨hreturns, hpublished, hconsumed⟩ := of_decide_eq_true hp
  exact ⟨s, hs.reach, hreturns, hpublished, hconsumed, exactly_once_untorn .fresh hs.reach⟩

/-! ## 4. No residue -/

/-- The slot a pop is clearing: from the first store of the clear to the EMPTY store. -/
def PopPc.clears : PopPc → Option (Fin queueCapacity)
  | .clearLength _ index _ | .clearByte _ index _ _ => some (getSlot index)
  | _ => none

/-- The consumer is clearing slot `i`. -/
def System.Clearing (s : System) (i : Fin queueCapacity) : Prop :=
  ∃ pc, s.consumer = some pc ∧ pc.clears = some i

/-- The length fits, and every payload byte from the length onwards is zero. -/
def MessageSlot.Tight (slot : MessageSlot) : Prop :=
  slot.header.length.toNat ≤ maxPayloadSize ∧
    ∀ j : Fin maxPayloadSize, slot.header.length.toNat ≤ j → slot.payload j = 0

/-- A push into a cleared slot leaves no byte behind the message. -/
theorem PushJob.tight_fill (sent : PushJob) : (sent.fill .cleared).Tight := by
  have hl : (sent.fill .cleared).header.length.toNat = sent.length := sent.length_toNat
  unfold MessageSlot.Tight
  rw [hl]
  exact ⟨sent.fits, fun j hj => if_neg (Nat.not_lt.mpr hj)⟩

/-- Until the first store of the clear the slot the consumer holds is as the push left it. -/
theorem PopPc.Drains.intact {sent : PushJob} {pc : PopPc} {slot : MessageSlot}
    {i : Fin queueCapacity} (h : pc.Drains sent slot) (hi : pc.holds = some i)
    (hc : pc.clears ≠ some i) : slot = sent.fill .cleared := by
  cases pc with
  | loadType job index => exact h
  | loadLength job index type => exact h.1
  | copyByte job index hd k => exact h.1
  | clearType job index hd => exact h.1
  | clearLength job index hd => exact absurd hi hc
  | clearByte job index hd k => exact absurd hi hc
  | loadIndex job => exact h.elim
  | loadState job index => exact h.elim
  | storeIndex job index hd => exact h.elim
  | done job popped => exact h.elim

/-- **No residue of consumed messages.** In every reachable state an EMPTY slot is all cleared,
    and a READY slot that the consumer is not clearing has a length that fits and nothing behind
    it. -/
theorem no_residue (memory : SharedQueueLayout) {s : System}
    (h : Reach System.step (.start memory) s) (i : Fin queueCapacity) :
    ((s.queue.slots i).state = SlotState.empty.code →
      (s.queue.slots i).header.type = MessageType.unknown.code ∧
        (s.queue.slots i).header.length = 0 ∧ ∀ j, (s.queue.slots i).payload j = 0) ∧
    ((s.queue.slots i).state = SlotState.ready.code → ¬ s.Clearing i →
      (s.queue.slots i).Tight) := by
  have hi := (inv_reach h).phase i
  refine ⟨fun he => ?_, fun hr hc => ?_⟩
  · rw [(hi.of_empty he).1]
    exact ⟨rfl, rfl, fun _ => rfl⟩
  · by_cases hh : s.Held i
    · obtain ⟨pc, hpc, hp⟩ := hh
      obtain ⟨sent, hd, -⟩ := hi.held hpc hp
      rw [hd.intact hp fun e => hc ⟨pc, hpc, e⟩]
      exact sent.tight_fill
    · obtain ⟨sent, hs, -⟩ := hi.of_ready hr hh
      rw [hs]
      exact sent.tight_fill

/-- Producer 0 sends two bytes through slot 0, fifteen others draw the tickets of the other slots,
    and producer 0 sends one byte through slot 0. -/
def refilledShorter : List Action :=
  [Action.push 0 twoBytes] ++ List.replicate 8 (Action.produce 0) ++ [Action.pop popText] ++
    List.replicate 268 Action.consume ++
    ((List.range 15).flatMap fun q => [Action.push (q + 1) oneByte, .produce (q + 1)]) ++
    [Action.push 0 oneByte] ++ List.replicate 6 (Action.produce 0)

/-- The law where a slot was consumed, cleared and filled again with a shorter message. -/
theorem no_residue_refilledShorter :
    ∃ s, Reach System.step (.start .fresh) s ∧
      s.history.consumed.map (·.entry.message.bytes) = [[72, 73]] ∧
      (s.queue.slots 0).state = SlotState.ready.code ∧ (s.queue.slots 0).message.bytes = [65] ∧
      ∀ i,
        ((s.queue.slots i).state = SlotState.empty.code →
          (s.queue.slots i).header.type = MessageType.unknown.code ∧
            (s.queue.slots i).header.length = 0 ∧ ∀ j, (s.queue.slots i).payload j = 0) ∧
        ((s.queue.slots i).state = SlotState.ready.code → ¬ s.Clearing i →
          (s.queue.slots i).Tight) := by
  obtain ⟨s, hs, hp⟩ := reach_of_run System.step (fun _ _ => true) (.start .fresh) refilledShorter
    (fun s => decide (s.history.consumed.map (·.entry.message.bytes) = [[72, 73]] ∧
      (s.queue.slots 0).state = SlotState.ready.code ∧
      (s.queue.slots 0).message.bytes = [65])) (by decide +kernel)
  obtain ⟨hconsumed, hready, hbytes⟩ := of_decide_eq_true hp
  exact ⟨s, hs.reach, hconsumed, hready, hbytes, no_residue .fresh hs.reach⟩

end HseMultithreading.Hw4
