/-
  File:      HseMultithreading/Hw4/WeakDelivery.lean
  Subject:   DELIVERY AND RACE FREEDOM of the hw4 queue under release and acquire, for any number of
             producers and one consumer.

  * `weakPush_sim`, `weakPop_sim` -- every weak step is a step of the machine of Steps.lean, or it
    is a refusal that an old value caused and that changes no memory (`System.refuse`,
    `System.miss`);
  * `WeakInv` -- the invariant of Delivery.lean, and the one of the memory beside it;
  * **`weak_race_free`** -- no data race, and no store without a place in modification order;
  * **`weak_exactly_once`** -- the law of delivery holds as it does on one memory;
  * **`weak_of_reach`** -- nothing is lost: every run on one memory is a weak run, the one whose
    loads take the newest messages.
-/
import HseMultithreading.Hw4.WeakMemory

namespace HseMultithreading.Hw4

open StepSystem Bag ReleaseAcquire

/-! ## 1. The machine on one memory, with refusals -/

/-- A producer at its `compare_exchange` is refused, whatever the slot holds. -/
def System.refuse (s : System) (p : ℕ) : System :=
  { s with producers := Function.update s.producers p (some (.done false)) }

/-- The consumer at its load of the state word gives up, whatever the slot holds. -/
def System.miss (s : System) (job : PopJob) : System :=
  { s with consumer := some (.done job false) }

theorem inv_refuse {s : System} (h : Inv s) {p : ℕ} {job : PushJob} {index : UInt64}
    (hpc : s.producers p = some (.compareExchange job index)) : Inv (s.refuse p) := by
  refine h.outside rfl rfl (fun i => ?_) rfl rfl rfl
  refine (h.phase i).frame rfl rfl ?_ (fun _ _ => Iff.rfl) (fun _ => rfl)
  refine update_producer_iff (fun pc h' => ?_) (fun pc h' => ?_)
  · rw [hpc] at h'
    exact Option.some.inj h' ▸ fun e => by cases e
  · exact Option.some.inj h' ▸ fun e => by cases e

theorem inv_miss {s : System} (h : Inv s) {job : PopJob} {index : UInt64}
    (hpc : s.consumer = some (.loadState job index)) : Inv (s.miss job) where
  phase i := by
    refine (h.phase i).frame rfl rfl (fun _ _ _ => Iff.rfl) (fun pc hi => ?_) fun _ => rfl
    rw [hpc]
    refine ⟨fun h' => ?_, fun h' => ?_⟩
    · rw [← Option.some.inj h'] at hi
      cases hi
    · rw [← Option.some.inj h'] at hi
      cases hi
  cursor pc index h1 h2 := by
    rw [← Option.some.inj h1] at h2
    cases h2
  bag := h.bag
  faithful := h.faithful
  handed pc h1 := by
    rw [← Option.some.inj h1]
    trivial

/-! ## 2. Every weak step is one of its steps -/

section Simulation

variable {m : QueueMemory} {k : ℕ}

/-- **Every weak step of a push is a step of the push on one memory, or a refusal.** -/
theorem weakPush_sim {p : ℕ} {pc : PushPc} {r : QueueMemory × Option PushPc}
    (h : weakPush m p k pc = some r) :
    (queueOf r.1, r.2) = pushStep (queueOf m) pc ∨
      (∃ job index, pc = .compareExchange job index) ∧ queueOf r.1 = queueOf m ∧
        r.2 = some (.done false) := by
  cases pc with
  | fetchAdd job =>
      obtain rfl := Option.some.inj h
      exact .inl (Prod.ext (queueOf_writeIndex _ _ _) rfl)
  | compareExchange job index =>
      obtain ⟨r', hr, rfl⟩ := Option.map_eq_some_iff.mp h
      rcases compareExchange_cases hr with ⟨he, rfl⟩ | ⟨-, -, rfl⟩
      · refine .inl ?_
        rw [pushStep_claim (q := queueOf m) he]
        exact Prod.ext (queueOf_state _ _ _) rfl
      · exact .inr ⟨⟨job, index, rfl⟩, rfl, rfl⟩
  | putType job i =>
      obtain rfl := Option.some.inj h
      exact .inl (Prod.ext (queueOf_type _) rfl)
  | putLength job i =>
      obtain rfl := Option.some.inj h
      exact .inl (Prod.ext (queueOf_length _) rfl)
  | copyByte job i j =>
      by_cases hj : j < job.length
      · simp only [weakPush, dif_pos hj] at h
        obtain rfl := Option.some.inj h
        rw [pushStep_copy hj]
        exact .inl (Prod.ext (queueOf_byte _ _) rfl)
      · simp only [weakPush, dif_neg hj] at h
        obtain rfl := Option.some.inj h
        rw [pushStep_publish hj]
        exact .inl (Prod.ext (queueOf_state _ _ _) rfl)
  | done pushed =>
      obtain rfl := Option.some.inj h
      exact .inl rfl

/-- **Every weak step of a pop is a step of the pop on one memory, or it gives up.** A READY that
    the consumer reads is the newest word of its slot. -/
theorem weakPop_sim {owns : ℕ → Fin queueCapacity → Prop} {held : Fin queueCapacity → Prop}
    (hT : Tracked m owns held) {pc : PopPc} {r : QueueMemory × Option PopPc}
    (h : weakPop m k pc = some r) :
    (queueOf r.1, r.2) = popStep (queueOf m) pc ∨
      ∃ job index, pc = .loadState job index ∧ queueOf r.1 = queueOf m ∧
        r.2 = some (.done job false) := by
  cases pc with
  | loadIndex job =>
      obtain ⟨r', hr, rfl⟩ := Option.map_eq_some_iff.mp h
      obtain ⟨hk, rfl⟩ := load_cases hr
      obtain rfl : k = m.last .readIndex := le_antisymm hk.2 (le_trans hT.index hk.1)
      exact .inl rfl
  | loadState job index =>
      obtain ⟨r', hr, rfl⟩ := Option.map_eq_some_iff.mp h
      obtain ⟨hk, rfl⟩ := load_cases hr
      by_cases hrdy : (m.message (.state (getSlot index)) k).value = SlotState.ready.code
      · obtain rfl : k = m.last (.state (getSlot index)) := by
          refine le_antisymm hk.2 (Nat.not_lt.mp fun hlt => ?_)
          exact hT.fresh _ k hk.1 hlt hrdy
        refine .inl ?_
        rw [popStep_observe (q := queueOf m) hrdy]
        exact Prod.ext rfl (congrArg some (if_pos hrdy))
      · exact .inr ⟨job, index, rfl, rfl, congrArg some (if_neg hrdy)⟩
  | loadType job index =>
      obtain rfl := Option.some.inj h
      exact .inl rfl
  | loadLength job index type =>
      obtain rfl := Option.some.inj h
      exact .inl rfl
  | copyByte job index hd j =>
      by_cases hj : j < hd.header.length.toNat
      · simp only [weakPop, dif_pos hj] at h
        obtain rfl := Option.some.inj h
        rw [popStep_copy hj]
        exact .inl rfl
      · simp only [weakPop, dif_neg hj] at h
        obtain rfl := Option.some.inj h
        rw [popStep_copied hj]
        exact .inl rfl
  | clearType job index hd =>
      obtain rfl := Option.some.inj h
      exact .inl (Prod.ext (queueOf_type _) rfl)
  | clearLength job index hd =>
      obtain rfl := Option.some.inj h
      exact .inl (Prod.ext (queueOf_length _) rfl)
  | clearByte job index hd j =>
      by_cases hj : j < maxPayloadSize
      · simp only [weakPop, dif_pos hj] at h
        obtain rfl := Option.some.inj h
        rw [popStep_clear hj]
        exact .inl (Prod.ext (queueOf_byte _ _) rfl)
      · simp only [weakPop, dif_neg hj] at h
        obtain rfl := Option.some.inj h
        rw [popStep_release hj]
        exact .inl (Prod.ext (queueOf_state _ _ _) rfl)
  | storeIndex job index hd =>
      obtain rfl := Option.some.inj h
      exact .inl (Prod.ext (queueOf_readIndex _ _ _) rfl)
  | done job popped =>
      obtain rfl := Option.some.inj h
      exact .inl rfl

end Simulation

/-! ## 3. The invariant -/

structure WeakInv (w : Weak) : Prop where
  inv : Inv w.system
  tracked : Tracked w.memory w.system.Owns w.system.Held

theorem weakInv_start (memory : SharedQueueLayout) : WeakInv (.start memory) where
  inv := inv_start memory
  tracked := (Tracked.start _).sub (fun _ _ ⟨_, h, _⟩ => by cases h) (fun _ ⟨_, h, _⟩ => by cases h)

section Steps

variable {w : Weak} {k : ℕ}

theorem owns_weakProduce {p p' : ℕ} {pc : PushPc} {r : QueueMemory × Option PushPc}
    {i : Fin queueCapacity} (h : (w.produce p pc r).system.Owns p' i) :
    (p' = p ∧ ∃ pc', r.2 = some pc' ∧ pc'.owns = some i) ∨ (p' ≠ p ∧ w.system.Owns p' i) := by
  obtain ⟨pc', h1, h2⟩ := h
  by_cases e : p' = p
  · subst e
    simp only [Weak.system, Weak.produce, Function.update_self] at h1
    exact .inl ⟨rfl, pc', h1, h2⟩
  · simp only [Weak.system, Weak.produce, Function.update_of_ne e] at h1
    exact .inr ⟨e, pc', h1, h2⟩

/-- A step of a producer that is left without a slot. -/
theorem Tracked.letGo {m : QueueMemory} {p : ℕ} {pc pc' : PushPc}
    (h : Tracked m w.system.Owns w.system.Held) (hn : pc'.owns = none) :
    Tracked m (w.produce p pc (m, some pc')).system.Owns w.system.Held := by
  refine h.sub (fun p' i hp => ?_) fun _ hi => hi
  rcases owns_weakProduce hp with ⟨-, pc'', h1, h2⟩ | ⟨-, ho⟩
  · rw [← Option.some.inj h1, hn] at h2
    cases h2
  · exact ho

/-- A plain store of a producer into the slot it owns. -/
theorem tracked_fill (h : WeakInv w) {p : ℕ} {pc pc' : PushPc} {x : Cell} (b : x.Word)
    (hpc : w.producers p = some pc) (hi : pc.owns = some x.slot) (hi' : pc'.owns = some x.slot) :
    Tracked (w.memory.put (.producer p) x b)
      (w.produce p pc (w.memory.put (.producer p) x b, some pc')).system.Owns w.system.Held := by
  obtain ⟨hf, hu, hc⟩ := (h.inv.phase x.slot).owned (s := w.system) hpc hi
  have hw : w.memory.newest (.state x.slot) = SlotState.writing.code := hf.state
  have hmine : w.system.Owns p x.slot := ⟨pc, hpc, hi⟩
  have ht := h.tracked.touch rfl true (h.tracked.owned p _ hmine).1
    (fun e => absurd (hw.symm.trans e) (by decide : SlotState.writing.code ≠ _))
    (fun e => absurd (hw.symm.trans e) (by decide : SlotState.writing.code ≠ _))
    (fun p' hp' => congrArg Party.producer (hu p' hp').symm) (fun hh => absurd hh hc)
  refine (ht.plain _).sub (fun p' i hp => ?_) fun _ hh => hh
  rcases owns_weakProduce hp with ⟨rfl, pc'', h1, h2⟩ | ⟨-, ho⟩
  · rw [← Option.some.inj h1, hi'] at h2
    exact Option.some.inj h2 ▸ hmine
  · exact ho

theorem tracked_produce (h : WeakInv w) {p : ℕ} {pc : PushPc} {r : QueueMemory × Option PushPc}
    (hpc : w.producers p = some pc) (hs : weakPush w.memory p k pc = some r) :
    Tracked r.1 (w.produce p pc r).system.Owns w.system.Held := by
  cases pc with
  | fetchAdd job =>
      obtain rfl := Option.some.inj hs
      refine Tracked.letGo ?_ rfl
      exact (h.tracked.observe _ _ _).appendIndex (fun i e => by cases e) (fun e => by cases e)
        (observe_seen _ _) _ _ _
  | compareExchange job index =>
      obtain ⟨r', hr, rfl⟩ := Option.map_eq_some_iff.mp hs
      rcases compareExchange_cases hr with ⟨he, rfl⟩ | ⟨-, -, rfl⟩
      · obtain ⟨-, hp, hc⟩ := (h.inv.phase (getSlot index)).of_empty he
        refine (h.tracked.claim he hp hc).sub (fun p' i hp' => ?_) fun _ hh => hh
        rcases owns_weakProduce hp' with ⟨rfl, pc', h1, h2⟩ | ⟨-, ho⟩
        · rw [← Option.some.inj h1] at h2
          exact .inr ⟨rfl, (Option.some.inj h2).symm⟩
        · exact .inl ho
      · exact (h.tracked.observe _ _ _).letGo rfl
  | putType job i =>
      obtain rfl := Option.some.inj hs
      exact tracked_fill h (x := .type i) _ hpc rfl rfl
  | putLength job i =>
      obtain rfl := Option.some.inj hs
      exact tracked_fill h (x := .length i) _ hpc rfl rfl
  | copyByte job i j =>
      by_cases hj : j < job.length
      · simp only [weakPush, dif_pos hj] at hs
        obtain rfl := Option.some.inj hs
        exact tracked_fill h (x := .byte i ⟨j, _⟩) _ hpc rfl rfl
      · simp only [weakPush, dif_neg hj] at hs
        obtain rfl := Option.some.inj hs
        obtain ⟨hf, hu, hc⟩ := (h.inv.phase i).owned (s := w.system) hpc rfl
        refine (h.tracked.publish ⟨_, hpc, rfl⟩ hf.state hu hc).sub (fun p' i' hp => ?_)
          fun _ hh => hh
        rcases owns_weakProduce hp with ⟨-, pc', h1, h2⟩ | ⟨hne, ho⟩
        · rw [← Option.some.inj h1] at h2
          cases h2
        · exact ⟨ho, fun e => hne e.1⟩
  | done pushed =>
      obtain rfl := Option.some.inj hs
      refine h.tracked.sub (fun p' i hp => ?_) fun _ hh => hh
      rcases owns_weakProduce hp with ⟨-, pc', h1, -⟩ | ⟨-, ho⟩
      · cases h1
      · exact ho

/-- The slot that the consumer holds after its step `r`. -/
def HeldBy (r : Option PopPc) (i : Fin queueCapacity) : Prop :=
  ∃ pc, r = some pc ∧ pc.holds = some i

/-- A step of the consumer that leaves it without a slot. -/
theorem Tracked.drop {m : QueueMemory} {owns : ℕ → Fin queueCapacity → Prop}
    {held : Fin queueCapacity → Prop} {pc : PopPc} (h : Tracked m owns held)
    (hn : pc.holds = none) : Tracked m owns (HeldBy (some pc)) := by
  refine h.sub (fun _ _ hp => hp) fun i ⟨pc', h1, h2⟩ => ?_
  rw [← Option.some.inj h1, hn] at h2
  cases h2

/-- A plain access of the consumer to the slot it holds. -/
theorem tracked_drain (h : WeakInv w) {pc : PopPc} (pc' : PopPc) {x : Cell} (acc : Bool)
    (hpc : w.consumer = some pc) (hi : pc.holds = some x.slot)
    (hi' : ∀ i, pc'.holds = some i → i = x.slot) :
    Tracked (w.memory.touch .consumer x acc) w.system.Owns (HeldBy (some pc')) := by
  obtain ⟨sent, hd, -, -, hp⟩ := (h.inv.phase x.slot).held (s := w.system) hpc hi
  have hr : w.memory.newest (.state x.slot) = SlotState.ready.code := hd.state
  have hmine : w.system.Held x.slot := ⟨pc, hpc, hi⟩
  have ht := h.tracked.touch rfl acc (h.tracked.drained _ hmine).1
    (fun e => absurd (hr.symm.trans e) (by decide : SlotState.ready.code ≠ _))
    (fun _ => rfl) (fun p hp' => absurd hp' (hp p)) (fun _ => rfl)
  refine ht.sub (fun _ _ hp => hp) fun i ⟨pc'', h1, h2⟩ => ?_
  rw [← Option.some.inj h1] at h2
  exact hi' i h2 ▸ hmine

/-- A pop that goes on with its header goes on with its slot. -/
theorem onHeader_holds {job : PopJob} {index : UInt64} {type length : UInt32}
    {i : Fin queueCapacity} (h : (PopPc.onHeader job index type length).holds = some i) :
    i = getSlot index := by
  revert h
  exact PopPc.onHeader_cases (motive := fun pc => pc.holds = some i → i = getSlot index)
    (fun h => by cases h) (fun _ _ _ h => (Option.some.inj h).symm)
    fun _ _ _ h => (Option.some.inj h).symm

theorem tracked_consume (h : WeakInv w) {pc : PopPc} {r : QueueMemory × Option PopPc}
    (hpc : w.consumer = some pc) (hs : weakPop w.memory k pc = some r) :
    Tracked r.1 w.system.Owns (HeldBy r.2) := by
  cases pc with
  | loadIndex job =>
      obtain ⟨r', hr, rfl⟩ := Option.map_eq_some_iff.mp hs
      obtain ⟨-, rfl⟩ := load_cases hr
      exact (h.tracked.observe _ _ _).drop rfl
  | loadState job index =>
      obtain ⟨r', hr, rfl⟩ := Option.map_eq_some_iff.mp hs
      obtain ⟨hk, rfl⟩ := load_cases hr
      by_cases hrdy : (w.memory.message (.state (getSlot index)) k).value = SlotState.ready.code
      · obtain rfl : k = w.memory.last (.state (getSlot index)) := by
          refine le_antisymm hk.2 (Nat.not_lt.mp fun hlt => ?_)
          exact h.tracked.fresh _ k hk.1 hlt hrdy
        simp only [if_pos hrdy]
        refine (h.tracked.take hrdy).sub (fun _ _ hp => hp) fun i ⟨pc', h1, h2⟩ => ?_
        rw [← Option.some.inj h1] at h2
        exact .inr (Option.some.inj h2).symm
      · simp only [if_neg hrdy]
        exact (h.tracked.observe _ _ _).drop rfl
  | loadType job index =>
      obtain rfl := Option.some.inj hs
      exact tracked_drain h _ (x := .type (getSlot index)) _ hpc rfl fun _ hi =>
        (Option.some.inj hi).symm
  | loadLength job index type =>
      obtain rfl := Option.some.inj hs
      exact tracked_drain h _ (x := .length (getSlot index)) _ hpc rfl fun _ hi => onHeader_holds hi
  | copyByte job index hd j =>
      by_cases hj : j < hd.header.length.toNat
      · simp only [weakPop, dif_pos hj] at hs
        obtain rfl := Option.some.inj hs
        exact tracked_drain h _ (x := .byte (getSlot index) ⟨j, _⟩) _ hpc rfl fun _ hi =>
          (Option.some.inj hi).symm
      · simp only [weakPop, dif_neg hj] at hs
        obtain rfl := Option.some.inj hs
        refine h.tracked.sub (fun _ _ hp => hp) fun i ⟨pc', h1, h2⟩ => ⟨_, hpc, ?_⟩
        rw [← Option.some.inj h1] at h2
        exact h2
  | clearType job index hd =>
      obtain rfl := Option.some.inj hs
      exact (tracked_drain h (.clearLength job index hd) (x := .type (getSlot index)) true hpc rfl
        fun _ hi => (Option.some.inj hi).symm).plain _
  | clearLength job index hd =>
      obtain rfl := Option.some.inj hs
      exact (tracked_drain h (.clearByte job index hd 0) (x := .length (getSlot index)) true hpc rfl
        fun _ hi => (Option.some.inj hi).symm).plain _
  | clearByte job index hd j =>
      by_cases hj : j < maxPayloadSize
      · simp only [weakPop, dif_pos hj] at hs
        obtain rfl := Option.some.inj hs
        exact (tracked_drain h (.clearByte job index hd (j + 1))
          (x := .byte (getSlot index) ⟨j, hj⟩) true hpc rfl
          fun _ hi => (Option.some.inj hi).symm).plain _
      · simp only [weakPop, dif_neg hj] at hs
        obtain rfl := Option.some.inj hs
        obtain ⟨-, -, -, -, hp⟩ := (h.inv.phase (getSlot index)).held (s := w.system) hpc rfl
        exact (h.tracked.release ⟨_, hpc, rfl⟩ hp).drop rfl
  | storeIndex job index hd =>
      obtain rfl := Option.some.inj hs
      exact (h.tracked.appendIndex (fun i e => by cases e) (fun _ => rfl) h.tracked.index _ _
        _).drop rfl
  | done job popped =>
      obtain rfl := Option.some.inj hs
      exact h.tracked.sub (fun _ _ hp => hp) fun i ⟨pc', h1, _⟩ => by cases h1

/-- A weak step of a producer, seen by the machine on one memory. -/
theorem inv_weakProduce (h : WeakInv w) {p : ℕ} {pc : PushPc} {r : QueueMemory × Option PushPc}
    (hpc : w.producers p = some pc) (hs : weakPush w.memory p k pc = some r) :
    Inv (w.produce p pc r).system := by
  rcases weakPush_sim hs with hsim | ⟨⟨job, index, rfl⟩, hq, hn⟩
  · have e : (w.produce p pc r).system = w.system.produce p pc := by
      simp only [Weak.system, Weak.produce, System.produce, ← hsim]
    rw [e]
    exact inv_produce h.inv hpc
  · have e : (w.produce p (.compareExchange job index) r).system = w.system.refuse p := by
      simp only [Weak.system, Weak.produce, System.refuse, hq, hn]
      rfl
    rw [e]
    exact inv_refuse h.inv hpc

/-- The observer of the weak machine writes down what the other one does. -/
theorem weakConsume_eq {h : History} {q : SharedQueueLayout} {pc : PopPc} :
    h.weakConsume q pc (popStep q pc).2 = h.consume q pc := by
  cases pc with
  | loadState job index =>
      by_cases hr : (q.slots (getSlot index)).state = SlotState.ready.code
      · rw [popStep_observe hr]
        exact (if_pos hr).symm
      · rw [popStep_notReady hr]
        exact (if_neg hr).symm
  | _ => rfl

/-- A weak step of the consumer, seen by the machine on one memory. -/
theorem inv_weakConsume (h : WeakInv w) {pc : PopPc} {r : QueueMemory × Option PopPc}
    (hpc : w.consumer = some pc) (hs : weakPop w.memory k pc = some r) :
    Inv (w.consume pc r).system := by
  rcases weakPop_sim h.tracked hs with hsim | ⟨job, index, rfl, hq, hn⟩
  · have e : (w.consume pc r).system = w.system.consume pc := by
      have h2 : r.2 = (popStep (queueOf w.memory) pc).2 := congrArg Prod.snd hsim
      simp only [Weak.system, Weak.consume, System.consume, ← hsim]
      rw [h2, weakConsume_eq]
    rw [e]
    exact inv_consume h.inv hpc
  · have e : (w.consume (.loadState job index) r).system = w.system.miss job := by
      simp only [Weak.system, Weak.consume, System.miss, hq, hn]
      rfl
    rw [e]
    exact inv_miss h.inv hpc

/-- **Every weak step keeps the invariant.** -/
theorem weakInv_step {w' : Weak} {a : WeakAction} (h : WeakInv w) (hs : w.step a = some w') :
    WeakInv w' := by
  cases a with
  | push p a =>
      simp only [Weak.step] at hs
      split at hs
      · cases hs
      · split at hs
        · rename_i hp
          obtain rfl := Option.some.inj hs
          refine ⟨inv_callPush (s := w.system) h.inv hp a, ?_⟩
          refine h.tracked.sub (fun p' i ⟨pc, h1, h2⟩ => ?_) fun _ hh => hh
          by_cases e : p' = p
          · subst e
            simp only [Weak.system, Weak.callPush, Function.update_self] at h1
            rw [← Option.some.inj h1] at h2
            unfold PushArgs.enter at h2
            split at h2 <;> cases h2
          · simp only [Weak.system, Weak.callPush, Function.update_of_ne e] at h1
            exact ⟨pc, h1, h2⟩
        · cases hs
  | produce p k =>
      simp only [Weak.step] at hs
      split at hs
      · cases hs
      · obtain ⟨pc, hpc, hs⟩ := Option.bind_eq_some_iff.mp hs
        obtain ⟨r, hr, rfl⟩ := Option.map_eq_some_iff.mp hs
        exact ⟨inv_weakProduce h hpc hr, tracked_produce h hpc hr⟩
  | pop a =>
      simp only [Weak.step] at hs
      split at hs
      · rename_i hc
        obtain rfl := Option.some.inj hs
        refine ⟨inv_callPop (s := w.system) h.inv hc a, ?_⟩
        exact h.tracked.drop (enter_pop a).2.1
      · cases hs
  | consume k =>
      obtain ⟨pc, hpc, hs⟩ := Option.bind_eq_some_iff.mp hs
      obtain ⟨r, hr, rfl⟩ := Option.map_eq_some_iff.mp hs
      exact ⟨inv_weakConsume h hpc hr, tracked_consume h hpc hr⟩
  | halt p =>
      obtain rfl := Option.some.inj hs
      exact ⟨inv_halt (s := w.system) h.inv p, h.tracked⟩

end Steps

theorem weakInv_reach {memory : SharedQueueLayout} {w : Weak}
    (h : Reach Weak.step (.start memory) w) : WeakInv w :=
  h.invariant (weakInv_start memory) fun _ _ _ hI _ hs => weakInv_step hI hs

/-! ## 4. Nothing is lost -/

section Newest

variable {m : QueueMemory} {k : ℕ}

theorem sound_push (h : Sound m) {p : ℕ} {pc : PushPc} {r : QueueMemory × Option PushPc}
    (hs : weakPush m p k pc = some r) : Sound r.1 := by
  cases pc with
  | fetchAdd job =>
      obtain rfl := Option.some.inj hs
      dsimp only
      exact h.fetchModify _ _
  | compareExchange job index =>
      obtain ⟨r', hr, rfl⟩ := Option.map_eq_some_iff.mp hs
      rcases compareExchange_cases hr with ⟨-, rfl⟩ | ⟨hk, -, rfl⟩
      · dsimp only
        exact h.fetchModify _ _
      · exact h.observe hk.2 _
  | putType job i | putLength job i => obtain rfl := Option.some.inj hs; exact h.put _ _
  | copyByte job i j =>
      simp only [weakPush] at hs
      split at hs <;> obtain rfl := Option.some.inj hs
      · exact h.put _ _
      · exact h.store _ _
  | done pushed => obtain rfl := Option.some.inj hs; exact h

theorem sound_pop (h : Sound m) {pc : PopPc} {r : QueueMemory × Option PopPc}
    (hs : weakPop m k pc = some r) : Sound r.1 := by
  cases pc with
  | loadIndex job | loadState job index =>
      obtain ⟨r', hr, rfl⟩ := Option.map_eq_some_iff.mp hs
      obtain ⟨hk, rfl⟩ := load_cases hr
      exact h.observe hk.2 _
  | loadType job index | loadLength job index type =>
      obtain rfl := Option.some.inj hs
      exact h.touch _ _
  | copyByte job index hd j =>
      simp only [weakPop] at hs
      split at hs <;> obtain rfl := Option.some.inj hs
      · exact h.touch _ _
      · exact h
  | clearType job index hd | clearLength job index hd =>
      obtain rfl := Option.some.inj hs
      exact h.put _ _
  | clearByte job index hd j =>
      simp only [weakPop] at hs
      split at hs <;> obtain rfl := Option.some.inj hs
      · exact h.put _ _
      · exact h.store _ _
  | storeIndex job index hd => obtain rfl := Option.some.inj hs; exact h.store _ _
  | done job popped => obtain rfl := Option.some.inj hs; exact h

/-- A push whose `compare_exchange` takes the newest word steps as on one memory. -/
theorem weakPush_newest (h : Sound m) (p : ℕ) (pc : PushPc) :
    ∃ k r, weakPush m p k pc = some r ∧ (queueOf r.1, r.2) = pushStep (queueOf m) pc := by
  cases pc with
  | compareExchange job index =>
      refine ⟨m.last (.state (getSlot index)), ?_⟩
      by_cases he : m.newest (.state (getSlot index)) = SlotState.empty.code
      · refine ⟨_, congrArg (Option.map _) (h.exchange he _ _ _), ?_⟩
        rw [pushStep_claim (q := queueOf m) he]
        exact Prod.ext (queueOf_state _ _ _) rfl
      · refine ⟨_, congrArg (Option.map _) (h.refuse he _ _ _), ?_⟩
        rw [pushStep_refused (q := queueOf m) he]
        rfl
  | copyByte job i j =>
      by_cases hj : j < job.length
      · refine ⟨0, _, dif_pos hj, ?_⟩
        rw [pushStep_copy hj]
        exact Prod.ext (queueOf_byte _ _) rfl
      · refine ⟨0, _, dif_neg hj, ?_⟩
        rw [pushStep_publish hj]
        exact Prod.ext (queueOf_state _ _ _) rfl
  | fetchAdd job => exact ⟨0, _, rfl, Prod.ext (queueOf_writeIndex _ _ _) rfl⟩
  | putType job i => exact ⟨0, _, rfl, Prod.ext (queueOf_type _) rfl⟩
  | putLength job i => exact ⟨0, _, rfl, Prod.ext (queueOf_length _) rfl⟩
  | done pushed => exact ⟨0, _, rfl, rfl⟩

/-- A pop whose loads take the newest words steps as on one memory. -/
theorem weakPop_newest (h : Sound m) (pc : PopPc) :
    ∃ k r, weakPop m k pc = some r ∧ (queueOf r.1, r.2) = popStep (queueOf m) pc := by
  cases pc with
  | loadIndex job => exact ⟨m.last .readIndex, _, congrArg (Option.map _) (h.load _), rfl⟩
  | loadState job index =>
      refine ⟨m.last (.state (getSlot index)), _, congrArg (Option.map _) (h.load _), ?_⟩
      by_cases hr : m.newest (.state (getSlot index)) = SlotState.ready.code
      · rw [popStep_observe (q := queueOf m) hr]
        exact Prod.ext rfl (congrArg some (if_pos hr))
      · rw [popStep_notReady (q := queueOf m) hr]
        exact Prod.ext rfl (congrArg some (if_neg hr))
  | loadType job index => exact ⟨0, _, rfl, rfl⟩
  | loadLength job index type => exact ⟨0, _, rfl, rfl⟩
  | copyByte job index hd j =>
      by_cases hj : j < hd.header.length.toNat
      · exact ⟨0, _, dif_pos hj, (popStep_copy (q := queueOf m) hj).symm⟩
      · exact ⟨0, _, dif_neg hj, (popStep_copied (q := queueOf m) hj).symm⟩
  | clearType job index hd => exact ⟨0, _, rfl, Prod.ext (queueOf_type _) rfl⟩
  | clearLength job index hd => exact ⟨0, _, rfl, Prod.ext (queueOf_length _) rfl⟩
  | clearByte job index hd j =>
      by_cases hj : j < maxPayloadSize
      · refine ⟨0, _, dif_pos hj, ?_⟩
        rw [popStep_clear hj]
        exact Prod.ext (queueOf_byte _ _) rfl
      · refine ⟨0, _, dif_neg hj, ?_⟩
        rw [popStep_release hj]
        exact Prod.ext (queueOf_state _ _ _) rfl
  | storeIndex job index hd => exact ⟨0, _, rfl, Prod.ext (queueOf_readIndex _ _ _) rfl⟩
  | done job popped => exact ⟨0, _, rfl, rfl⟩

end Newest

/-- **Every step of the machine on one memory is a weak step** in which the loads take the newest
    messages. -/
theorem weak_of_step {w : Weak} (hsound : Sound w.memory) {s' : System} {a : Action}
    (h : w.system.step a = some s') :
    ∃ a' w', w.step a' = some w' ∧ w'.system = s' ∧ Sound w'.memory := by
  rcases step_cases h with ⟨p, args, rfl, hh, hp, rfl⟩ | ⟨p, pc, rfl, hh, hp, rfl⟩ |
    ⟨args, rfl, hc, rfl⟩ | ⟨pc, rfl, hc, rfl⟩ | ⟨p, rfl, rfl⟩
  · refine ⟨.push p args, w.callPush p args, ?_, rfl, hsound⟩
    have hh' : w.halted p = false := hh
    have hp' : w.producers p = none := hp
    simp only [Weak.step, hh', hp']
    rfl
  · obtain ⟨k, r, hr, hq⟩ := weakPush_newest hsound p pc
    refine ⟨.produce p k, w.produce p pc r, ?_, ?_, sound_push hsound hr⟩
    · have hh' : w.halted p = false := hh
      have hp' : w.producers p = some pc := hp
      simp [Weak.step, hh', hp', hr]
    · simp only [Weak.system, Weak.produce, System.produce, ← hq]
  · refine ⟨.pop args, { w with consumer := some args.enter }, ?_, rfl, hsound⟩
    have hc' : w.consumer = none := hc
    simp only [Weak.step, hc']
  · obtain ⟨k, r, hr, hq⟩ := weakPop_newest hsound pc
    refine ⟨.consume k, w.consume pc r, ?_, ?_, sound_pop hsound hr⟩
    · have hc' : w.consumer = some pc := hc
      simp [Weak.step, hc', hr]
    · have h2 : r.2 = (popStep (queueOf w.memory) pc).2 := congrArg Prod.snd hq
      simp only [Weak.system, Weak.consume, System.consume, ← hq]
      rw [h2, weakConsume_eq]
  · exact ⟨.halt p, _, rfl, rfl, hsound⟩

/-! ## 5. The results -/

/-- **Every run on one memory is a weak run.** -/
theorem weak_of_reach (memory : SharedQueueLayout) {s : System}
    (h : Reach System.step (.start memory) s) :
    ∃ w, Reach Weak.step (.start memory) w ∧ w.system = s := by
  have hall := h.invariant
    (I := fun s => ∃ w, Reach Weak.step (.start memory) w ∧ w.system = s ∧ Sound w.memory)
    ⟨.start memory, .start, rfl, .start _ _⟩ <| by
      rintro s a s' ⟨w, hw, rfl, hsound⟩ - hs
      obtain ⟨a', w', hs', he, hsound'⟩ := weak_of_step hsound hs
      exact ⟨w', hw.trans (.single trivial hs'), he, hsound'⟩
  obtain ⟨w, hw, he, -⟩ := hall
  exact ⟨w, hw, he⟩

/-- A push and a pop in the middle of their calls, on a weak memory. -/
theorem weak_of_reach_midway :
    ∃ s, Reach System.step (.start .fresh) s ∧ s.history.published.length = 1 ∧
      ∃ w, Reach Weak.step (.start .fresh) w ∧ w.system = s := by
  obtain ⟨s, hs, hp⟩ := reach_of_run System.step (fun _ _ => true) (.start .fresh) midway
    (fun s => decide (s.history.published.length = 1)) (by decide +kernel)
  exact ⟨s, hs.reach, of_decide_eq_true hp, weak_of_reach .fresh hs.reach⟩

/-- Producer 0 sends a byte; the consumer first looks with the old EMPTY word in front of it and
    gives up, then reads the READY word and goes on to the length. -/
def staleFirst : List WeakAction :=
  [.push 0 oneByte, .produce 0 0, .produce 0 0, .produce 0 0, .produce 0 0, .produce 0 0,
    .produce 0 0, .produce 0 0, .pop popText, .consume 0, .consume 0, .consume 0, .pop popText,
    .consume 0, .consume 2, .consume 0, .consume 0]

/-- **No data race.** In every reachable state no two conflicting accesses to a header or a payload
    byte were unordered, and every store to an index or a state word had its place behind the
    newest one. -/
theorem weak_race_free (memory : SharedQueueLayout) {w : Weak}
    (h : Reach Weak.step (.start memory) w) : w.memory.racy = false ∧ w.memory.loose = false :=
  (weakInv_reach h).tracked.quiet

/-- The race-free run with an old word in it. -/
theorem weak_race_free_staleFirst :
    ∃ w, Reach Weak.step (.start .fresh) w ∧ (w.memory.log (.length 0)).length = 2 ∧
      w.memory.racy = false ∧ w.memory.loose = false := by
  obtain ⟨w, hw, hp⟩ := reach_of_run Weak.step (fun _ _ => true) (.start .fresh) staleFirst
    (fun w => decide ((w.memory.log (.length 0)).length = 2)) (by decide +kernel)
  exact ⟨w, hw.reach, of_decide_eq_true hp, weak_race_free .fresh hw.reach⟩

/-- **Exactly-once, untorn delivery under the memory orders of the source.** In every reachable
    state the messages whose producer has executed the READY store are, as a multiset, the messages
    the consumer has consumed together with those of the READY slots; what a matching pop copied out
    is the message it consumed; and a pop that returns `true` returns with it in the caller's
    memory. -/
theorem weak_exactly_once (memory : SharedQueueLayout) {w : Weak}
    (h : Reach Weak.step (.start memory) w) :
    (↑(w.history.published.map Entry.message) : Multiset Message) =
      ↑(w.history.consumed.map (·.entry.message)) + bagOf w.system.readyMessage ∧
    (∀ c ∈ w.history.consumed, ∀ m, c.out = some m → m = c.entry.message) ∧
    (∀ job, w.consumer = some (.done job true) →
      ∃ c, w.history.consumed.getLast? = some c ∧ c.entry.message = job.delivered) := by
  have hI := (weakInv_reach h).inv
  refine ⟨hI.messages, hI.faithful, fun job hj => ?_⟩
  obtain ⟨c, hc, ho⟩ := hI.handed _ hj
  exact ⟨c, hc, (hI.faithful c (List.mem_of_getLast? hc) _ ho).symm⟩

/-- The same run on to the end of the second pop. -/
def staleThenDelivered : List WeakAction := staleFirst ++ List.replicate 262 (WeakAction.consume 0)

/-- The law where a message is delivered to a consumer that has read an old word before. -/
theorem weak_exactly_once_staleThenDelivered :
    ∃ w, Reach Weak.step (.start .fresh) w ∧
      w.consumer.bind PopPc.returns = some ⟨1, 1, [65]⟩ ∧
      w.history.published.map (·.message.bytes) = [[65]] ∧
      w.history.consumed.map (·.entry.message.bytes) = [[65]] ∧
      (↑(w.history.published.map Entry.message) : Multiset Message) =
        ↑(w.history.consumed.map (·.entry.message)) + bagOf w.system.readyMessage ∧
      (∀ c ∈ w.history.consumed, ∀ m, c.out = some m → m = c.entry.message) ∧
      (∀ job, w.consumer = some (.done job true) →
        ∃ c, w.history.consumed.getLast? = some c ∧ c.entry.message = job.delivered) := by
  obtain ⟨w, hw, hp⟩ := reach_of_run Weak.step (fun _ _ => true) (.start .fresh)
    staleThenDelivered (fun w => decide (w.consumer.bind PopPc.returns = some ⟨1, 1, [65]⟩ ∧
      w.history.published.map (·.message.bytes) = [[65]] ∧
      w.history.consumed.map (·.entry.message.bytes) = [[65]])) (by decide +kernel)
  obtain ⟨hreturns, hpublished, hconsumed⟩ := of_decide_eq_true hp
  exact ⟨w, hw.reach, hreturns, hpublished, hconsumed, weak_exactly_once .fresh hw.reach⟩

end HseMultithreading.Hw4
