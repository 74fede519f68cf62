/-
  File:      HseMultithreading/Hw4/Crash.lean
  Subject:   DEAD PRODUCERS in the hw4 queue: which accepted messages can still be consumed when
             producers halt for ever, at any step of a push.

  The consumer takes the slot at its position or nothing. A producer that dies before its
  `compare_exchange` leaves an EMPTY slot, which a later push fills. A producer that dies after it
  leaves its slot WRITING for good, and the consumer never gets past it.

  * `System.position` -- where the consumer takes the next message.
  * `System.Blocked` -- between the position and the slot of the message lies a slot that a halted
    producer has claimed.
  * `blocked_reach` -- a blocked message stays blocked, whatever happens.
  * `unblocked_consumed` -- any other message is consumed in some continuation: the consumer
    finishes its call, live producers publish what they have claimed, new ones fill what is EMPTY.
  * **`consumable_iff`** -- so an accepted message can still be consumed iff it is not blocked.
  * `dead_producer_blocks` -- one dead producer in front of one accepted message.
-/
import HseMultithreading.Hw4.Order
import HseMultithreading.Hw4.Ring

namespace HseMultithreading.Hw4

open StepSystem Bag

/-! ## 1. The position of the consumer -/

/-- Where the consumer takes the next message: `read_index`, and behind it once the slot there was
    released and only the store of the index is left. -/
def System.position (s : System) : UInt64 :=
  match s.consumer with
  | some (.storeIndex _ index _) => index + 1
  | _ => s.queue.readIndex

/-- The calls whose messages have been consumed. -/
def History.consumedTags (h : History) : List Tag := h.consumed.map (·.entry.tag)

/-- The message of call `tag` lies in slot `i`. -/
def System.Lies (s : System) (tag : Tag) (i : Fin queueCapacity) : Prop :=
  ∃ e, s.pending i = some e ∧ e.tag = tag

/-- Slot `j` was claimed by a producer that is dead now. -/
def System.Dead (s : System) (j : Fin queueCapacity) : Prop := ∃ p, s.halted p = true ∧ s.Owns p j

/-- **The message of call `tag` is blocked**: a dead slot lies in front of it. -/
def System.Blocked (s : System) (tag : Tag) : Prop :=
  ∃ i j, s.Lies tag i ∧ s.Dead j ∧ distance s.position j < distance s.position i

/-- Everything but the death of a producer. -/
def Action.alive : Action → Bool
  | .halt _ => false
  | _ => true

/-- A continuation: steps of the consumer and of producers that are not halted. -/
abbrev LiveRun (s s' : System) : Prop := ReachWhere System.step (fun _ a => a.alive = true) s s'

/-- **Some continuation consumes the message of call `tag`.** -/
def System.Consumable (s : System) (tag : Tag) : Prop :=
  ∃ s', LiveRun s s' ∧ tag ∈ s'.history.consumedTags

theorem distance_eq_zero {index : UInt64} {i : Fin queueCapacity} (h : distance index i = 0) :
    getSlot index = i := by
  have e := slotAt_distance index i
  rw [h] at e
  exact e

theorem distance_getSlot (index : UInt64) : distance index (getSlot index) = 0 :=
  distance_slotAt index (k := 0) (by decide)

/-- One place further, every other slot is one place nearer. -/
theorem distance_succ {index : UInt64} {i : Fin queueCapacity} (h : getSlot index ≠ i) :
    distance (index + 1) i + 1 = distance index i := by
  have hpos : distance index i ≠ 0 := fun e => h (distance_eq_zero e)
  obtain ⟨k, hk⟩ := Nat.exists_eq_succ_of_ne_zero hpos
  have hlt := distance_lt index i
  have e : slotAt (index + 1) k = i := by
    rw [slotAt_succ, ← Nat.succ_eq_add_one, ← hk]
    exact slotAt_distance index i
  rw [hk, ← e, distance_slotAt _ (by omega)]

/-! ## 2. What a step does to the messages in the ring -/

/-- A step that takes nothing out of the ring. -/
structure KeepsRing (s s' : System) : Prop where
  position : s'.position = s.position
  consumed : s'.history.consumed = s.history.consumed
  pending : ∀ i e, s.pending i = some e → s'.pending i = some e

/-- The step that takes the message at the position. -/
structure TakesHead (s s' : System) : Prop where
  position : s'.position = s.position + 1
  taken : ∃ e, s.pending (getSlot s.position) = some e ∧
    s'.history.consumedTags = s.history.consumedTags ++ [e.tag]
  pending : ∀ i e, getSlot s.position ≠ i → s.pending i = some e → s'.pending i = some e

section Effect

variable {s s' : System}

theorem position_of {pc : PopPc} (h : s.consumer = some pc) (hne : ∀ job index hd,
    pc ≠ .storeIndex job index hd) : s.position = s.queue.readIndex := by
  unfold System.position
  rw [h]
  cases pc with
  | storeIndex job index hd => exact absurd rfl (hne job index hd)
  | _ => rfl

theorem keeps_callPush (p : ℕ) (a : PushArgs) : KeepsRing s (s.callPush p a) :=
  ⟨rfl, rfl, fun _ _ h => h⟩

theorem keeps_halt (p : ℕ) : KeepsRing s (s.halt p) := ⟨rfl, rfl, fun _ _ h => h⟩

theorem keeps_callPop (hc : s.consumer = none) (a : PopArgs) : KeepsRing s (s.callPop a) := by
  refine ⟨?_, rfl, fun _ _ h => h⟩
  have e : s.position = s.queue.readIndex := by unfold System.position; rw [hc]
  rw [e]
  refine position_of rfl fun job index hd e => ?_
  have h := (enter_pop a).1
  rw [e] at h
  cases h

theorem keeps_produce (h : Inv s) {p : ℕ} {pc : PushPc} (hpc : s.producers p = some pc) :
    KeepsRing s (s.produce p pc) := by
  refine ⟨?_, (produce_observed _ _ _).2, fun i e hi => ?_⟩
  · unfold System.position System.produce
    simp only [pushStep_readIndex]
  · by_cases hpub : ∃ job j k, pc = .copyByte job j k ∧ ¬ k < job.length
    · obtain ⟨job, j, k, rfl, hk⟩ := hpub
      -- The slot that is published now stood for nothing before.
      have hw := ((h.phase j).owned hpc rfl).1.state
      have hne : j ≠ i := by
        intro e'
        unfold System.pending at hi
        rw [← e', hw, if_neg (by decide)] at hi
        cases hi
      have ht : (PushPc.copyByte job j k).touches ≠ some i := fun e' => hne (Option.some.inj e')
      rw [← hi]
      simp only [System.pending, System.produce, pushStep_slots _ ht, produce_owner _ _ ht]
    · rw [(pending_produce h hpc fun job j k e' =>
        Classical.not_not.mp fun hk => hpub ⟨job, j, k, e', hk⟩).1]
      exact hi

/-- The EMPTY store is the step that takes a message. -/
theorem takes_release (h : Inv s) {job : PopJob} {index : UInt64} {hd : FitHeader} {k : ℕ}
    (hpc : s.consumer = some (.clearByte job index hd k)) (hk : ¬ k < maxPayloadSize) :
    TakesHead s (s.consume (.clearByte job index hd k)) := by
  have hpos : s.position = index :=
    (position_of hpc fun _ _ _ e => by cases e).trans (h.cursor _ _ hpc rfl)
  refine ⟨?_, ⟨s.history.owner (getSlot index), ?_, ?_⟩, fun i e hne hi => ?_⟩
  · rw [hpos]
    unfold System.position System.consume
    simp only [popStep_release hk]
  · obtain ⟨sent, hdr, _⟩ := (h.phase (getSlot index)).held hpc rfl
    rw [hpos]
    simp only [System.pending, hdr.state, if_true]
  · show ((s.history.consume s.queue _).consumed).map (·.entry.tag) = _
    rw [(consumed_release h hpc hk).1, List.map_append]
    rfl
  · have ht : (PopPc.clearByte job index hd k).cursor.map getSlot ≠ some i :=
      fun e' => hne (hpos ▸ Option.some.inj e')
    rw [← hi]
    simp only [System.pending, System.consume, popStep_slots _ ht, consume_owner]

theorem keeps_consume {pc : PopPc} (hpc : s.consumer = some pc)
    (hnr : ∀ job index hd k, pc = .clearByte job index hd k → k < maxPayloadSize) :
    KeepsRing s (s.consume pc) := by
  obtain ⟨hpend, hcons⟩ := pending_consume s hnr
  refine ⟨?_, hcons, fun i e hi => by rw [hpend]; exact hi⟩
  by_cases hst : ∃ job index hd, pc = .storeIndex job index hd
  · obtain ⟨job, index, hd, rfl⟩ := hst
    have e : s.position = index + 1 := by unfold System.position; rw [hpc]
    rw [e]
    rfl
  · have hst' : ∀ job index hd, pc ≠ .storeIndex job index hd :=
      fun job index hd e => hst ⟨job, index, hd, e⟩
    rw [position_of hpc hst', ← (popStep_effect s.queue pc).readIndex hst']
    show System.position (s.consume pc) = (s.consume pc).queue.readIndex
    cases hc : (s.consume pc).consumer with
    | none => unfold System.position; rw [hc]
    | some pc' =>
        refine position_of hc fun job index hd e => ?_
        obtain ⟨k, hk, hlt⟩ := (popStep_next (hc.trans (congrArg some e))).release
        exact hlt (hnr job index hd k hk)

/-- **Every step keeps the messages in the ring or takes the one at the position.** -/
theorem step_effect (h : Inv s) {a : Action} (hs : s.step a = some s') :
    KeepsRing s s' ∨ TakesHead s s' := by
  rcases step_cases hs with ⟨p, args, _, _, _, rfl⟩ | ⟨p, pc, _, _, hp, rfl⟩ | ⟨args, _, hc, rfl⟩ |
    ⟨pc, _, hc, rfl⟩ | ⟨p, _, rfl⟩
  · exact .inl (keeps_callPush p args)
  · exact .inl (keeps_produce h hp)
  · exact .inl (keeps_callPop hc args)
  · by_cases hrel : ∃ job index hd k, pc = .clearByte job index hd k ∧ ¬ k < maxPayloadSize
    · obtain ⟨job, index, hd, k, rfl, hk⟩ := hrel
      exact .inr (takes_release h hc hk)
    · exact .inl (keeps_consume hc fun job index hd k e =>
        Classical.not_not.mp fun hk => hrel ⟨job, index, hd, k, e, hk⟩)
  · exact .inl (keeps_halt p)

/-- What was consumed stays consumed. -/
theorem consumed_step (h : Inv s) {a : Action} (hs : s.step a = some s') {tag : Tag}
    (ht : tag ∈ s.history.consumedTags) : tag ∈ s'.history.consumedTags := by
  rcases step_effect h hs with hk | hk
  · unfold History.consumedTags
    rw [hk.consumed]
    exact ht
  · obtain ⟨e, _, hc⟩ := hk.taken
    rw [hc]
    exact List.mem_append_left _ ht

/-! ### Dead slots -/

/-- A dead producer stays dead, and stays where it is. -/
theorem halted_step {a : Action} (hs : s.step a = some s') {p : ℕ} (hp : s.halted p = true) :
    s'.halted p = true ∧ s'.producers p = s.producers p := by
  have hne : ∀ p', s.halted p' = false → p ≠ p' := by
    intro p' hp' e
    rw [e, hp'] at hp
    cases hp
  rcases step_cases hs with ⟨p', args, _, hh, _, rfl⟩ | ⟨p', pc, _, hh, _, rfl⟩ |
    ⟨args, _, _, rfl⟩ | ⟨pc, _, _, rfl⟩ | ⟨p', _, rfl⟩
  · exact ⟨hp, Function.update_of_ne (hne p' hh) _ _⟩
  · exact ⟨hp, Function.update_of_ne (hne p' hh) _ _⟩
  · exact ⟨hp, rfl⟩
  · exact ⟨hp, rfl⟩
  · refine ⟨?_, rfl⟩
    show Function.update s.halted p' true p = true
    by_cases e : p = p'
    · rw [e, Function.update_self]
    · rw [Function.update_of_ne e]
      exact hp

theorem halted_alive {a : Action} (ha : a.alive = true) (hs : s.step a = some s') :
    s'.halted = s.halted := by
  rcases step_cases hs with ⟨_, _, _, _, _, rfl⟩ | ⟨_, _, _, _, _, rfl⟩ | ⟨_, _, _, rfl⟩ |
    ⟨_, _, _, rfl⟩ | ⟨p, rfl, _⟩
  · rfl
  · rfl
  · rfl
  · rfl
  · cases ha

theorem dead_step {a : Action} (hs : s.step a = some s') {j : Fin queueCapacity} (hj : s.Dead j) :
    s'.Dead j := by
  obtain ⟨p, hp, pc, hpc, howns⟩ := hj
  obtain ⟨hp', hsame⟩ := halted_step hs hp
  exact ⟨p, hp', pc, hsame.trans hpc, howns⟩

/-- As long as nobody dies, no slot becomes dead. -/
theorem dead_of_step {a : Action} (ha : a.alive = true) (hs : s.step a = some s')
    {j : Fin queueCapacity} (hj : s'.Dead j) : s.Dead j := by
  obtain ⟨p, hp, pc, hpc, howns⟩ := hj
  rw [halted_alive ha hs] at hp
  exact ⟨p, hp, pc, (halted_step hs hp).2.symm.trans hpc, howns⟩

/-- A dead slot is not READY. -/
theorem dead_not_pending (h : Inv s) {j : Fin queueCapacity} (hj : s.Dead j) :
    s.pending j = none := by
  obtain ⟨p, _, pc, hpc, howns⟩ := hj
  have hw := ((h.phase j).owned hpc howns).1.state
  unfold System.pending
  rw [hw]
  exact if_neg (by decide)

/-- The head of the ring is not a dead slot when it is taken. -/
theorem TakesHead.not_dead (h : Inv s) (ht : TakesHead s s') {j : Fin queueCapacity}
    (hj : s.Dead j) : getSlot s.position ≠ j := by
  intro e
  obtain ⟨x, hx, _⟩ := ht.taken
  rw [e, dead_not_pending h hj] at hx
  cases hx

end Effect

/-! ## 3. Blocked for good -/

section Blocked

variable {s s' : System} {tag : Tag} {i : Fin queueCapacity}

/-- **A blocked message stays blocked**: the consumer cannot get past the dead slot. -/
theorem blocked_step (h : Inv s) {a : Action} (hs : s.step a = some s') (hb : s.Blocked tag) :
    s'.Blocked tag := by
  obtain ⟨i, j, ⟨e, hi, he⟩, hj, hlt⟩ := hb
  have hni : getSlot s.position ≠ i := by
    intro e'
    rw [← e', distance_getSlot] at hlt
    exact Nat.not_lt_zero _ hlt
  rcases step_effect h hs with hk | hk
  · refine ⟨i, j, ⟨e, hk.pending i e hi, he⟩, dead_step hs hj, ?_⟩
    rw [hk.position]
    exact hlt
  · refine ⟨i, j, ⟨e, hk.pending i e hni hi, he⟩, dead_step hs hj, ?_⟩
    have h1 := distance_succ (hk.not_dead h hj)
    have h2 := distance_succ hni
    rw [hk.position]
    omega

theorem blocked_reach (h : Inv s) {C : System → Action → Prop} (hr : ReachWhere System.step C s s')
    (hb : s.Blocked tag) : s'.Blocked tag :=
  (hr.invariant (I := fun s => Inv s ∧ s.Blocked tag) ⟨h, hb⟩
    fun _ _ _ hi _ hs => ⟨inv_step hi.1 hs, blocked_step hi.1 hs hi.2⟩).2

/-- No call is published twice. -/
theorem CallOrder.tags_nodup (h : CallOrder s) : (s.history.published.map (·.tag)).Nodup := by
  refine List.Pairwise.map _ (fun e e' hee e'' => ?_) h.sorted
  have hlt := (hee (congrArg Tag.producer e'')).2
  rw [e''] at hlt
  exact Nat.lt_irrefl _ hlt

/-- A message that lies in the ring has not been consumed. -/
theorem lies_not_consumed (h : Inv s) (ho : CallOrder s) (hl : s.Lies tag i) :
    tag ∉ s.history.consumedTags := by
  obtain ⟨e, hi, rfl⟩ := hl
  have hnd : ((s.history.published : Multiset Entry).map (·.tag)).Nodup :=
    Multiset.coe_nodup.mpr ho.tags_nodup
  rw [h.bag, Multiset.map_add] at hnd
  have hdis := (Multiset.nodup_add.mp hnd).2.2
  intro hc
  refine Multiset.disjoint_left.mp hdis ?_ (Multiset.mem_map_of_mem _ (mem_bagOf.mpr ⟨i, hi⟩))
  obtain ⟨c, hc, he⟩ := List.mem_map.mp hc
  rw [← he]
  exact Multiset.mem_map_of_mem _ (Multiset.mem_coe.mpr (List.mem_map_of_mem hc))

/-- **A blocked message is never consumed.** -/
theorem blocked_not_consumable {memory : SharedQueueLayout}
    (hr : Reach System.step (.start memory) s) (hb : s.Blocked tag) : ¬ s.Consumable tag := by
  intro ⟨s', hr', hc⟩
  obtain ⟨i, _, hl, _, _⟩ := blocked_reach (inv_reach hr) hr' hb
  have hr'' := hr.trans hr'.reach
  exact lies_not_consumed (inv_reach hr'') (callOrder_reach hr'') hl hc

end Blocked

/-! ## 4. Accepted messages -/

section Accepted

variable {s s' : System}

/-- A call that has returned `true`, or is about to, has published its message. -/
structure Accepted (s : System) : Prop where
  returned : ∀ tag ∈ s.history.returned, tag ∈ s.history.published.map (·.tag)
  returning : ∀ p, s.producers p = some (.done true) →
    ⟨p, s.history.calls p⟩ ∈ s.history.published.map (·.tag)

theorem accepted_callPush (h : Accepted s) (p : ℕ) (a : PushArgs) : Accepted (s.callPush p a) := by
  refine ⟨h.returned, fun p' hp' => ?_⟩
  by_cases e : p' = p
  · rw [e] at hp'
    simp only [System.callPush, Function.update_self] at hp'
    unfold PushArgs.enter at hp'
    split at hp' <;> cases hp'
  · simp only [System.callPush, Function.update_of_ne e] at hp' ⊢
    exact h.returning p' hp'

theorem accepted_produce (h : Accepted s) {p : ℕ} {pc : PushPc} (hpc : s.producers p = some pc) :
    Accepted (s.produce p pc) := by
  have hmono : ∀ tag ∈ s.history.published.map (·.tag),
      tag ∈ (s.history.produce p pc).published.map (·.tag) := by
    intro tag ht
    cases pc with
    | copyByte job i k =>
        by_cases hk : k < job.length
        · rw [produce_copy hk]
          exact ht
        · rw [produce_publish hk, List.map_append]
          exact List.mem_append_left _ ht
    | done pushed => cases pushed <;> exact ht
    | _ => exact ht
  have hcalls : (s.history.produce p pc).calls = s.history.calls := by
    cases pc with
    | copyByte job i k => simp only [History.produce]; split <;> rfl
    | done pushed => cases pushed <;> rfl
    | _ => rfl
  refine ⟨fun tag ht => ?_, fun p' hp' => ?_⟩
  · have hret : tag ∈ s.history.returned ∨ (pc = .done true ∧ tag = ⟨p, s.history.calls p⟩) := by
      have ht' : tag ∈ (s.history.produce p pc).returned := ht
      cases pc with
      | copyByte job i k => simp only [History.produce] at ht'; split at ht' <;> exact .inl ht'
      | done pushed =>
          cases pushed with
          | false => exact .inl ht'
          | true =>
              rcases List.mem_append.mp ht' with ht' | ht'
              · exact .inl ht'
              · exact .inr ⟨rfl, List.mem_singleton.mp ht'⟩
      | _ => exact .inl ht'
    rcases hret with ht' | ⟨rfl, rfl⟩
    · exact hmono tag (h.returned tag ht')
    · exact hmono _ (h.returning p hpc)
  · show ⟨p', (s.history.produce p pc).calls p'⟩ ∈ (s.history.produce p pc).published.map (·.tag)
    rw [hcalls]
    by_cases e : p' = p
    · rw [e] at hp' ⊢
      simp only [System.produce, Function.update_self] at hp'
      cases pc with
      | compareExchange job index => simp only [pushStep] at hp'; split at hp' <;> cases hp'
      | copyByte job i k =>
          by_cases hk : k < job.length
          · rw [pushStep_copy hk] at hp'
            cases hp'
          · rw [produce_publish hk, List.map_append]
            exact List.mem_append_right _ (List.mem_singleton_self _)
      | _ => cases hp'
    · simp only [System.produce, Function.update_of_ne e] at hp'
      exact hmono _ (h.returning p' hp')

theorem accepted_reach {memory : SharedQueueLayout} {C : System → Action → Prop}
    (hr : ReachWhere System.step C (.start memory) s) : Accepted s := by
  refine hr.invariant ⟨fun _ h => absurd h List.not_mem_nil, fun _ h => by cases h⟩
    fun s a s' h _ hs => ?_
  rcases step_cases hs with ⟨p, args, _, _, _, rfl⟩ | ⟨p, pc, _, _, hp, rfl⟩ | ⟨_, _, _, rfl⟩ |
    ⟨pc, _, _, rfl⟩ | ⟨_, _, rfl⟩
  · exact accepted_callPush h p args
  · exact accepted_produce h hp
  · exact ⟨h.returned, h.returning⟩
  · have hpub := (consume_owner s.history s.queue pc).2
    have hret : (s.history.consume s.queue pc).returned = s.history.returned := by
      cases pc with
      | loadState job index => simp only [History.consume]; split <;> rfl
      | clearByte job index hd k => simp only [History.consume]; split <;> rfl
      | _ => rfl
    refine ⟨fun tag ht => ?_, fun p hp => ?_⟩
    · show tag ∈ (s.history.consume s.queue pc).published.map (·.tag)
      rw [hpub]
      exact h.returned tag (hret ▸ ht)
    · show ⟨p, (s.history.consume s.queue pc).calls p⟩ ∈
        (s.history.consume s.queue pc).published.map (·.tag)
      rw [(consume_calls _ _ _).1, hpub]
      exact h.returning p hp
  · exact ⟨h.returned, h.returning⟩

/-- **An accepted message that was not consumed lies in the ring.** -/
theorem Accepted.lies (ha : Accepted s) (h : Inv s) {tag : Tag} (hret : tag ∈ s.history.returned)
    (hc : tag ∉ s.history.consumedTags) : ∃ i, s.Lies tag i := by
  obtain ⟨e, he, rfl⟩ := List.mem_map.mp (ha.returned tag hret)
  have hm : e ∈ (s.history.published : Multiset Entry) := Multiset.mem_coe.mpr he
  rw [h.bag] at hm
  rcases Multiset.mem_add.mp hm with hm | hm
  · obtain ⟨c, hcm, rfl⟩ := List.mem_map.mp (Multiset.mem_coe.mp hm)
    exact absurd (List.mem_map_of_mem hcm) hc
  · obtain ⟨i, hi⟩ := mem_bagOf.mp hm
    exact ⟨i, e, hi, rfl⟩

end Accepted

/-! ## 5. Running one party alone -/

section Alone

variable {s s' : System} {p : ℕ}

theorem liveRun_push (hp : s.producers p = none) (hh : s.halted p = false) (a : PushArgs) :
    LiveRun s (s.callPush p a) := by
  have hs : s.step (.push p a) = some (s.callPush p a) := by simp [System.step, hp, hh]
  exact .single rfl hs

theorem liveRun_produce {pc : PushPc} (hp : s.producers p = some pc) (hh : s.halted p = false) :
    LiveRun s (s.produce p pc) := by
  have hs : s.step (.produce p) = some (s.produce p pc) := by simp [System.step, hp, hh]
  exact .single rfl hs

theorem liveRun_pop (hc : s.consumer = none) (a : PopArgs) : LiveRun s (s.callPop a) := by
  have hs : s.step (.pop a) = some (s.callPop a) := by simp [System.step, hc]
  exact .single rfl hs

theorem step_consume {pc : PopPc} (hc : s.consumer = some pc) :
    s.step .consume = some (s.consume pc) := by
  simp [System.step, hc]

theorem liveRun_consume {pc : PopPc} (hc : s.consumer = some pc) : LiveRun s (s.consume pc) :=
  .single rfl (step_consume hc)

/-! ### The consumer -/

/-- How many steps a pop has left at most. -/
def PopPc.left : PopPc → ℕ
  | .done _ _ => 1
  | .storeIndex _ _ _ => 2
  | .clearByte _ _ _ k => 3 + (256 - k)
  | .clearLength _ _ _ => 260
  | .clearType _ _ _ => 261
  | .copyByte _ _ h k => 262 + (h.header.length.toNat - k)
  | .loadLength _ _ _ => 519
  | .loadType _ _ => 520
  | .loadState _ _ => 521
  | .loadIndex _ => 522

theorem PopPc.left_le (pc : PopPc) : pc.left ≤ 522 := by
  cases pc with
  | copyByte job index hd k =>
      have hfit : hd.header.length.toNat ≤ 256 := hd.fits
      simp only [PopPc.left]
      omega
  | clearByte job index hd k =>
      simp only [PopPc.left]
      omega
  | _ => simp [PopPc.left]

theorem popStep_left {q : SharedQueueLayout} {pc pc' : PopPc} (h : (popStep q pc).2 = some pc') :
    pc'.left < pc.left := by
  cases pc with
  | loadState job index =>
      simp only [popStep] at h
      split at h <;> cases h <;> simp [PopPc.left]
  | loadLength job index type =>
      cases h
      refine PopPc.onHeader_cases (motive := fun pc => pc.left < 519) (by simp [PopPc.left])
        (fun hd _ _ => ?_) fun _ _ _ => by simp [PopPc.left]
      have hfit : hd.header.length.toNat ≤ 256 := hd.fits
      show 262 + (hd.header.length.toNat - 0) < 519
      omega
  | copyByte job index hd k =>
      by_cases hk : k < hd.header.length.toNat
      · rw [popStep_copy hk] at h
        cases h
        show 262 + (hd.header.length.toNat - (k + 1)) < 262 + (hd.header.length.toNat - k)
        omega
      · rw [popStep_copied hk] at h
        cases h
        show 261 < 262 + (hd.header.length.toNat - k)
        omega
  | clearByte job index hd k =>
      by_cases hk : k < maxPayloadSize
      · rw [popStep_clear hk] at h
        cases h
        have hk' : k < 256 := hk
        show 3 + (256 - (k + 1)) < 3 + (256 - k)
        omega
      · rw [popStep_release hk] at h
        cases h
        show 2 < 3 + (256 - k)
        omega
  | done job popped => cases h
  | _ => cases h; simp [PopPc.left]

/-- The consumer, left alone, returns from its call. -/
theorem consumer_returns (n : ℕ) : ∀ {s : System}, (∀ pc, s.consumer = some pc → pc.left ≤ n) →
    ∃ s', LiveRun s s' ∧ s'.consumer = none := by
  induction n with
  | zero =>
      intro s h
      cases hc : s.consumer with
      | none => exact ⟨s, .start, hc⟩
      | some pc =>
          have hle := h pc hc
          cases pc <;> simp [PopPc.left] at hle
  | succ n ih =>
      intro s h
      cases hc : s.consumer with
      | none => exact ⟨s, .start, hc⟩
      | some pc =>
          obtain ⟨s', hr, hnone⟩ := ih (s := s.consume pc) fun pc' hpc' => by
            have h1 := popStep_left hpc'
            have h2 := h pc hc
            omega
          exact ⟨s', (liveRun_consume hc).trans hr, hnone⟩

/-- A pop that has observed READY and will not turn back. -/
def PopPc.Committed : PopPc → Prop
  | .loadType job _ | .loadLength job _ _ => maxPayloadSize ≤ job.size
  | .copyByte _ _ _ _ | .clearType _ _ _ | .clearLength _ _ _ | .clearByte _ _ _ _ => True
  | _ => False

/-- Its next step takes the message, or it goes on. -/
theorem committed_step (h : Inv s) {pc : PopPc} (hc : s.consumer = some pc) (hpc : pc.Committed) :
    TakesHead s (s.consume pc) ∨ ∃ pc', (s.consume pc).consumer = some pc' ∧ pc'.Committed := by
  cases pc with
  | loadType job index => exact .inr ⟨_, rfl, hpc⟩
  | loadLength job index type =>
      obtain ⟨sent, hdr, _⟩ := (h.phase (getSlot index)).held hc rfl
      obtain ⟨hd, _, hstep⟩ := popStep_loadLength job hdr.1 type
      have hsize : ¬ job.size < sent.length :=
        Nat.not_lt.mpr (Nat.le_trans sent.fits hpc)
      rw [if_neg hsize] at hstep
      right
      show ∃ pc', (popStep s.queue (.loadLength job index type)).2 = some pc' ∧ pc'.Committed
      rw [hstep]
      split
      · exact ⟨_, rfl, trivial⟩
      · exact ⟨_, rfl, trivial⟩
  | copyByte job index hd k =>
      right
      show ∃ pc', (popStep s.queue (.copyByte job index hd k)).2 = some pc' ∧ pc'.Committed
      by_cases hk : k < hd.header.length.toNat
      · rw [popStep_copy hk]
        exact ⟨_, rfl, trivial⟩
      · rw [popStep_copied hk]
        exact ⟨_, rfl, trivial⟩
  | clearType job index hd => exact .inr ⟨_, rfl, trivial⟩
  | clearLength job index hd => exact .inr ⟨_, rfl, trivial⟩
  | clearByte job index hd k =>
      by_cases hk : k < maxPayloadSize
      · right
        show ∃ pc', (popStep s.queue (.clearByte job index hd k)).2 = some pc' ∧ pc'.Committed
        rw [popStep_clear hk]
        exact ⟨_, rfl, trivial⟩
      · exact .inl (takes_release h hc hk)
  | _ => exact hpc.elim

/-- The consumer gets to the step that takes the message at its position. -/
def System.Reaps (s : System) : Prop :=
  ∃ s₁ s₂, LiveRun s s₁ ∧ s₁.step .consume = some s₂ ∧ TakesHead s₁ s₂

theorem Reaps.of_run (hr : LiveRun s s') (h : s'.Reaps) : s.Reaps := by
  obtain ⟨s₁, s₂, h1, h2, h3⟩ := h
  exact ⟨s₁, s₂, hr.trans h1, h2, h3⟩

theorem committed_reaps (n : ℕ) : ∀ {s : System} {pc : PopPc}, Inv s → s.consumer = some pc →
    pc.Committed → pc.left ≤ n → s.Reaps := by
  induction n with
  | zero =>
      intro s pc _ _ _ hle
      cases pc <;> simp [PopPc.left] at hle
  | succ n ih =>
      intro s pc h hc hpc hle
      rcases committed_step h hc hpc with ht | ⟨pc', hc', hpc'⟩
      · exact ⟨s, s.consume pc, .start, step_consume hc, ht⟩
      · have hlt := popStep_left hc'
        exact Reaps.of_run (liveRun_consume hc)
          (ih (inv_step h (step_consume hc)) hc' hpc' (by omega))

/-- A pop with a buffer of `MAX_PAYLOAD_SIZE` bytes takes the message at the position. -/
theorem pop_reaps (h : Inv s) (hc : s.consumer = none)
    (hr : (s.queue.slots (getSlot s.queue.readIndex)).state = SlotState.ready.code) : s.Reaps := by
  obtain ⟨job, hsize, henter⟩ : ∃ job : PopJob, job.size = 256 ∧ popText.enter = .loadIndex job :=
    ⟨_, rfl, rfl⟩
  have h1 : (s.callPop popText).consumer = some (.loadIndex job) := congrArg some henter
  have h2 : ((s.callPop popText).consume (.loadIndex job)).consumer =
      some (.loadState job s.queue.readIndex) := rfl
  have h3 : (((s.callPop popText).consume (.loadIndex job)).consume
      (.loadState job s.queue.readIndex)).consumer = some (.loadType job s.queue.readIndex) :=
    congrArg Prod.snd (popStep_observe hr)
  have hrun := ((liveRun_pop hc popText).trans (liveRun_consume h1)).trans (liveRun_consume h2)
  have hinv : Inv (((s.callPop popText).consume (.loadIndex job)).consume
      (.loadState job s.queue.readIndex)) :=
    inv_step (inv_step (inv_callPop h hc popText) (step_consume h1)) (step_consume h2)
  refine Reaps.of_run hrun (committed_reaps _ hinv h3 ?_ (Nat.le_refl _))
  show maxPayloadSize ≤ job.size
  rw [hsize]

/-! ### The producers -/

/-- Producers alone make slot `i` READY. -/
def Readies (s : System) (i : Fin queueCapacity) : Prop :=
  ∃ s', LiveRun s s' ∧ s'.consumer = s.consumer ∧ s'.queue.readIndex = s.queue.readIndex ∧
    (s'.queue.slots i).state = SlotState.ready.code

theorem Readies.of_run {i : Fin queueCapacity} (hr : LiveRun s s')
    (hc : s'.consumer = s.consumer) (hi : s'.queue.readIndex = s.queue.readIndex)
    (h : Readies s' i) : Readies s i := by
  obtain ⟨t, h1, h2, h3, h4⟩ := h
  exact ⟨t, hr.trans h1, h2.trans hc, h3.trans hi, h4⟩

theorem Readies.of_produce {i : Fin queueCapacity} {pc : PushPc} (hp : s.producers p = some pc)
    (hh : s.halted p = false) (h : Readies (s.produce p pc) i) : Readies s i :=
  Readies.of_run (liveRun_produce hp hh) rfl (pushStep_readIndex _ _) h

theorem copy_readies {i : Fin queueCapacity} (n : ℕ) : ∀ {s : System} {job : PushJob} {k : ℕ},
    s.producers p = some (.copyByte job i k) → s.halted p = false → job.length - k ≤ n →
    Readies s i := by
  have hlast : ∀ {s : System} {job : PushJob} {k : ℕ}, s.producers p = some (.copyByte job i k) →
      s.halted p = false → ¬ k < job.length → Readies s i := by
    intro s job k hp hh hk
    refine ⟨s.produce p (.copyByte job i k), liveRun_produce hp hh, rfl, pushStep_readIndex _ _, ?_⟩
    simp only [System.produce, pushStep_publish hk, setSlot_slots_self]
  induction n with
  | zero =>
      intro s job k hp hh hle
      exact hlast hp hh (by omega)
  | succ n ih =>
      intro s job k hp hh hle
      by_cases hk : k < job.length
      · have hnext : (s.produce p (.copyByte job i k)).producers p =
            some (.copyByte job i (k + 1)) := by
          simp only [System.produce, Function.update_self, pushStep_copy hk]
        exact Readies.of_produce hp hh (ih hnext hh (by omega))
      · exact hlast hp hh hk

/-- A producer that lives publishes the slot it has claimed. -/
theorem owner_readies {i : Fin queueCapacity} (hh : s.halted p = false) (ho : s.Owns p i) :
    Readies s i := by
  have hlength : ∀ {s : System} {job : PushJob}, s.producers p = some (.putLength job i) →
      s.halted p = false → Readies s i := by
    intro s job hp hh
    have hnext : (s.produce p (.putLength job i)).producers p = some (.copyByte job i 0) :=
      Function.update_self _ _ _
    exact Readies.of_produce hp hh (copy_readies _ hnext hh (Nat.le_refl _))
  obtain ⟨pc, hp, howns⟩ := ho
  cases pc with
  | putType job j =>
      obtain rfl := Option.some.inj howns
      have hnext : (s.produce p (.putType job j)).producers p = some (.putLength job j) :=
        Function.update_self _ _ _
      exact Readies.of_produce hp hh (hlength hnext hh)
  | putLength job j =>
      obtain rfl := Option.some.inj howns
      exact hlength hp hh
  | copyByte job j k =>
      obtain rfl := Option.some.inj howns
      exact copy_readies _ hp hh (Nat.le_refl _)
  | _ => cases howns

/-- From some number on the producers have not been heard of. -/
def System.HasFresh (s : System) : Prop :=
  ∃ n, ∀ p, n ≤ p → s.producers p = none ∧ s.halted p = false

theorem fresh_callPush (h : s.HasFresh) (p : ℕ) (a : PushArgs) : (s.callPush p a).HasFresh := by
  obtain ⟨n, hn⟩ := h
  refine ⟨max n (p + 1), fun q hq => ⟨?_, (hn q (by omega)).2⟩⟩
  exact (Function.update_of_ne (by omega) _ _).trans (hn q (by omega)).1

theorem fresh_produce (h : s.HasFresh) {pc : PushPc} (hp : s.producers p = some pc) :
    (s.produce p pc).HasFresh := by
  obtain ⟨n, hn⟩ := h
  refine ⟨n, fun q hq => ⟨?_, (hn q hq).2⟩⟩
  have hne : q ≠ p := fun e => by rw [← e, (hn q hq).1] at hp; cases hp
  exact (Function.update_of_ne hne _ _).trans (hn q hq).1

theorem fresh_step {a : Action} (h : s.HasFresh) (hs : s.step a = some s') : s'.HasFresh := by
  rcases step_cases hs with ⟨p, args, _, _, _, rfl⟩ | ⟨p, pc, _, _, hp, rfl⟩ | ⟨_, _, _, rfl⟩ |
    ⟨pc, _, _, rfl⟩ | ⟨p, _, rfl⟩
  · exact fresh_callPush h p args
  · exact fresh_produce h hp
  · exact h
  · exact h
  · obtain ⟨n, hn⟩ := h
    refine ⟨max n (p + 1), fun q hq => ⟨(hn q (by omega)).1, ?_⟩⟩
    exact (Function.update_of_ne (by omega) _ _).trans (hn q (by omega)).2

theorem fresh_reach {memory : SharedQueueLayout} {C : System → Action → Prop}
    (hr : ReachWhere System.step C (.start memory) s) : s.HasFresh :=
  hr.invariant ⟨0, fun _ _ => ⟨rfl, rfl⟩⟩ fun _ _ _ h _ hs => fresh_step h hs

/-- **New producers fill an EMPTY slot**: they draw tickets until one is for this slot. -/
theorem empty_readies {i : Fin queueCapacity} (m : ℕ) : ∀ {s : System}, s.HasFresh →
    (s.queue.slots i).state = SlotState.empty.code → distance s.queue.writeIndex i = m →
    Readies s i := by
  induction m with
  | zero =>
      intro s hf he hm
      obtain ⟨n, hn⟩ := hf
      obtain ⟨hp, hh⟩ := hn n (Nat.le_refl n)
      have hi : getSlot s.queue.writeIndex = i := distance_eq_zero hm
      obtain ⟨job, henter⟩ : ∃ job, emptyPush.enter = .fetchAdd job := ⟨_, rfl⟩
      have h1 : (s.callPush n emptyPush).producers n = some (.fetchAdd job) :=
        (Function.update_self _ _ _).trans (congrArg some henter)
      have h2 : ((s.callPush n emptyPush).produce n (.fetchAdd job)).producers n =
          some (.compareExchange job s.queue.writeIndex) := Function.update_self _ _ _
      have he' : (((s.callPush n emptyPush).produce n (.fetchAdd job)).queue.slots
          (getSlot s.queue.writeIndex)).state = SlotState.empty.code := by rw [hi]; exact he
      have h3 : (((s.callPush n emptyPush).produce n (.fetchAdd job)).produce n
          (.compareExchange job s.queue.writeIndex)).producers n =
          some (.putType job (getSlot s.queue.writeIndex)) :=
        (Function.update_self _ _ _).trans (congrArg Prod.snd (pushStep_claim he'))
      have hclaimed : (((s.callPush n emptyPush).produce n (.fetchAdd job)).produce n
          (.compareExchange job s.queue.writeIndex)).Owns n i := ⟨_, h3, congrArg some hi⟩
      exact Readies.of_run (liveRun_push hp hh emptyPush) rfl rfl
        (Readies.of_produce h1 hh (Readies.of_produce h2 hh (owner_readies (by exact hh) hclaimed)))
  | succ m ih =>
      intro s hf he hm
      obtain ⟨n, hn⟩ := id hf
      obtain ⟨hp, hh⟩ := hn n (Nat.le_refl n)
      have hi : getSlot s.queue.writeIndex ≠ i := by
        intro e
        rw [← e, distance_getSlot] at hm
        cases hm
      obtain ⟨job, henter⟩ : ∃ job, emptyPush.enter = .fetchAdd job := ⟨_, rfl⟩
      have h1 : (s.callPush n emptyPush).producers n = some (.fetchAdd job) :=
        (Function.update_self _ _ _).trans (congrArg some henter)
      refine Readies.of_run (liveRun_push hp hh emptyPush) rfl rfl (Readies.of_produce h1 hh ?_)
      refine ih (fresh_produce (fresh_callPush hf n emptyPush) h1) he ?_
      have hd := distance_succ hi
      show distance (s.queue.writeIndex + 1) i = m
      omega

end Alone

/-! ## 6. What is not blocked is consumed -/

/-- The message of call `tag` lies in slot `i`, and no dead slot lies in front of it. -/
structure Open (s : System) (tag : Tag) (i : Fin queueCapacity) : Prop where
  lies : s.Lies tag i
  dead : ∀ j, s.Dead j → distance s.position i ≤ distance s.position j

section Open

variable {s s' : System} {tag : Tag} {i : Fin queueCapacity}

/-- The step that takes a message takes this one or brings it nearer. -/
theorem Open.takes (ho : Open s tag i) (h : Inv s) {a : Action} (ha : a.alive = true)
    (hs : s.step a = some s') (ht : TakesHead s s') :
    tag ∈ s'.history.consumedTags ∨
      (Open s' tag i ∧ distance s'.position i < distance s.position i) := by
  obtain ⟨⟨e, hi, he⟩, hdead⟩ := ho
  by_cases hhead : getSlot s.position = i
  · obtain ⟨e', he', hc⟩ := ht.taken
    rw [hhead, hi] at he'
    rw [hc, ← Option.some.inj he', he]
    exact .inl (List.mem_append_right _ (List.mem_singleton_self tag))
  · have hi' := distance_succ hhead
    refine .inr ⟨⟨⟨e, ht.pending i e hhead hi, he⟩, fun j hj => ?_⟩, ?_⟩
    · have hj := dead_of_step ha hs hj
      have hj' := distance_succ (ht.not_dead h hj)
      have hle := hdead j hj
      rw [ht.position]
      omega
    · rw [ht.position]
      omega

theorem Open.step (ho : Open s tag i) (h : Inv s) {a : Action} (ha : a.alive = true)
    (hs : s.step a = some s') :
    tag ∈ s'.history.consumedTags ∨
      (Open s' tag i ∧ distance s'.position i ≤ distance s.position i) := by
  rcases step_effect h hs with hk | ht
  · obtain ⟨⟨e, hi, he⟩, hdead⟩ := ho
    refine .inr ⟨⟨⟨e, hk.pending i e hi, he⟩, fun j hj => ?_⟩, ?_⟩
    · rw [hk.position]
      exact hdead j (dead_of_step ha hs hj)
    · rw [hk.position]
  · exact (ho.takes h ha hs ht).imp_right fun h' => ⟨h'.1, Nat.le_of_lt h'.2⟩

theorem Open.run (ho : Open s tag i) (h : Inv s) (hr : LiveRun s s') :
    Inv s' ∧ (tag ∈ s'.history.consumedTags ∨
      (Open s' tag i ∧ distance s'.position i ≤ distance s.position i)) := by
  induction hr with
  | start => exact ⟨h, .inr ⟨ho, Nat.le_refl _⟩⟩
  | next t t' a _ ha hs ih =>
      obtain ⟨ht, hcase⟩ := ih
      refine ⟨inv_step ht hs, ?_⟩
      rcases hcase with hc | ⟨ho', hle⟩
      · exact .inl (consumed_step ht hs hc)
      · rcases ho'.step ht ha hs with hc | ⟨ho'', hle'⟩
        · exact .inl hc
        · exact .inr ⟨ho'', Nat.le_trans hle' hle⟩

/-- With the consumer idle, the slot at its position becomes READY: nobody dead has claimed it. -/
theorem Open.head_readies (ho : Open s tag i) (h : Inv s) (hf : s.HasFresh)
    (hc : s.consumer = none) : Readies s (getSlot s.queue.readIndex) := by
  have hpos : s.position = s.queue.readIndex := by unfold System.position; rw [hc]
  cases h.phase (getSlot s.queue.readIndex) with
  | free hslot _ _ =>
      refine empty_readies _ hf ?_ rfl
      rw [hslot]
      rfl
  | filling p pc hpc howns _ _ _ =>
      refine owner_readies (p := p) ?_ ⟨pc, hpc, howns⟩
      cases hh : s.halted p with
      | false => rfl
      | true =>
          -- A dead producer there would be in front of the message, or hold its slot.
          have hdead : s.Dead (getSlot s.queue.readIndex) := ⟨p, hh, pc, hpc, howns⟩
          have hle := ho.dead _ hdead
          rw [hpos, distance_getSlot] at hle
          have hi := distance_eq_zero (Nat.le_zero.mp hle)
          obtain ⟨e, he, _⟩ := ho.lies
          rw [← hi, dead_not_pending h hdead] at he
          cases he
  | full sent hslot _ _ _ => exact ⟨s, .start, rfl, rfl, by rw [hslot]; rfl⟩
  | draining _ pc hpc _ _ _ _ _ =>
      rw [hc] at hpc
      cases hpc

/-- The message is consumed or comes nearer. -/
theorem Open.nearer (ho : Open s tag i) (h : Inv s) (hf : s.HasFresh) :
    ∃ s', LiveRun s s' ∧ (tag ∈ s'.history.consumedTags ∨
      (Open s' tag i ∧ distance s'.position i < distance s.position i)) := by
  -- The consumer finishes the call it is in.
  obtain ⟨s₁, hr₁, hc₁⟩ := consumer_returns 522 fun pc _ => pc.left_le
  obtain ⟨h₁, hcase⟩ := ho.run h hr₁
  rcases hcase with hcons | ⟨ho₁, hle₁⟩
  · exact ⟨s₁, hr₁, .inl hcons⟩
  have hf₁ : s₁.HasFresh := hr₁.invariant hf fun _ _ _ hi _ hs => fresh_step hi hs
  -- The slot at its position becomes READY.
  obtain ⟨s₂, hr₂, hc₂, hidx, hready⟩ := ho₁.head_readies h₁ hf₁ hc₁
  obtain ⟨h₂, -⟩ := ho₁.run h₁ hr₂
  -- A new pop takes it.
  rw [← hidx] at hready
  obtain ⟨s₃, s₄, hr₃, hs, ht⟩ := pop_reaps h₂ (hc₂.trans hc₁) hready
  have hrun := hr₂.trans hr₃
  obtain ⟨h₃, hcase⟩ := ho₁.run h₁ hrun
  have hall : LiveRun s s₄ := (hr₁.trans hrun).trans (.single rfl hs)
  rcases hcase with hcons | ⟨ho₃, hle₃⟩
  · exact ⟨s₄, hall, .inl (consumed_step h₃ hs hcons)⟩
  · refine ⟨s₄, hall, (ho₃.takes h₃ rfl hs ht).imp_right fun h' => ⟨h'.1, ?_⟩⟩
    exact Nat.lt_of_lt_of_le h'.2 (Nat.le_trans hle₃ hle₁)

/-- **A message with no dead slot in front of it is consumed in some continuation.** -/
theorem unblocked_consumed (n : ℕ) : ∀ {s : System}, Inv s → s.HasFresh → Open s tag i →
    distance s.position i ≤ n → s.Consumable tag := by
  induction n with
  | zero =>
      intro s h hf ho hle
      obtain ⟨s', hr, hcase⟩ := ho.nearer h hf
      rcases hcase with hc | ⟨_, hlt⟩
      · exact ⟨s', hr, hc⟩
      · omega
  | succ n ih =>
      intro s h hf ho hle
      obtain ⟨s', hr, hcase⟩ := ho.nearer h hf
      rcases hcase with hc | ⟨ho', hlt⟩
      · exact ⟨s', hr, hc⟩
      · have hf' : s'.HasFresh := hr.invariant hf fun _ _ _ hi _ hs => fresh_step hi hs
        obtain ⟨t, hr', hc⟩ := ih (ho.run h hr).1 hf' ho' (by omega)
        exact ⟨t, hr.trans hr', hc⟩

end Open

/-! ## 7. Which messages survive dead producers -/

/-- **An accepted message can still be consumed iff no slot that a halted producer has claimed lies
    in front of it**, in every state that producers, consumer and deaths can reach. -/
theorem consumable_iff (memory : SharedQueueLayout) {s : System}
    (h : Reach System.step (.start memory) s) {tag : Tag} (hret : tag ∈ s.history.returned)
    (hnot : tag ∉ s.history.consumedTags) : s.Consumable tag ↔ ¬ s.Blocked tag := by
  constructor
  · exact fun hc hb => blocked_not_consumable h hb hc
  · intro hb
    have hi := inv_reach h
    obtain ⟨i, hl⟩ := (accepted_reach h).lies hi hret hnot
    have ho : Open s tag i :=
      ⟨hl, fun j hj => Nat.le_of_not_lt fun hlt => hb ⟨i, j, hl, hj, hlt⟩⟩
    exact unblocked_consumed _ hi (fresh_reach h) ho (Nat.le_refl _)

/-- Producer `p` pushes one byte and returns. -/
def pushOneByte (p : ℕ) : List Action := .push p oneByte :: List.replicate 7 (.produce p)

/-- Producer `p` claims a slot and dies. -/
def claimAndDie (p : ℕ) : List Action := [.push p oneByte, .produce p, .produce p, .halt p]

theorem consumable_iff_dead_behind :
    ∃ s, Reach System.step (.start .fresh) s ∧ s.Dead 1 ∧ ⟨0, 1⟩ ∈ s.history.returned ∧
      ⟨0, 1⟩ ∉ s.history.consumedTags ∧ s.Consumable ⟨0, 1⟩ := by
  obtain ⟨s, hs, hp⟩ := reach_of_run System.step (fun _ _ => true) (.start .fresh)
    (pushOneByte 0 ++ claimAndDie 1)
    (fun s => decide (s.halted 1 = true ∧ (s.producers 1).bind PushPc.owns = some 1 ∧
      s.history.returned = [⟨0, 1⟩] ∧ s.history.consumedTags = [] ∧ s.position = 0 ∧
      ∀ i, (s.pending i).map (·.tag) = some ⟨0, 1⟩ → i = 0)) (by decide +kernel)
  obtain ⟨hhalt, howns, hret, hcons, hpos, hslot⟩ := of_decide_eq_true hp
  obtain ⟨pc, hpc, howns⟩ := Option.bind_eq_some_iff.mp howns
  have hr := hs.reach
  have hmem : (⟨0, 1⟩ : Tag) ∈ s.history.returned := by rw [hret]; exact List.mem_singleton_self _
  have hnot : (⟨0, 1⟩ : Tag) ∉ s.history.consumedTags := by rw [hcons]; exact List.not_mem_nil
  refine ⟨s, hr, ⟨1, hhalt, pc, hpc, howns⟩, hmem, hnot, ?_⟩
  refine (consumable_iff .fresh hr hmem hnot).mpr fun ⟨i, j, ⟨e, he, htag⟩, _, hlt⟩ => ?_
  have hi : i = 0 := hslot i (by rw [he, Option.map_some, htag])
  rw [hi, hpos] at hlt
  exact Nat.not_lt_zero _ hlt

/-- **One dead producer blocks the others**: producer 0 is killed right after its
    `compare_exchange`, the push of producer 1 returns `true`, and no continuation consumes its
    message. -/
theorem dead_producer_blocks :
    ∃ s, Reach System.step (.start .fresh) s ∧ ⟨1, 1⟩ ∈ s.history.returned ∧
      ⟨1, 1⟩ ∉ s.history.consumedTags ∧ ¬ s.Consumable ⟨1, 1⟩ := by
  obtain ⟨s, hs, hp⟩ := reach_of_run System.step (fun _ _ => true) (.start .fresh)
    (claimAndDie 0 ++ pushOneByte 1)
    (fun s => decide (s.halted 0 = true ∧ (s.producers 0).bind PushPc.owns = some 0 ∧
      s.history.returned = [⟨1, 1⟩] ∧ s.history.consumedTags = [] ∧ s.position = 0 ∧
      (s.pending 1).map (·.tag) = some ⟨1, 1⟩)) (by decide +kernel)
  obtain ⟨hhalt, howns, hret, hcons, hpos, hslot⟩ := of_decide_eq_true hp
  obtain ⟨pc, hpc, howns⟩ := Option.bind_eq_some_iff.mp howns
  obtain ⟨e, he, htag⟩ := Option.map_eq_some_iff.mp hslot
  have hr := hs.reach
  refine ⟨s, hr, by rw [hret]; exact List.mem_singleton_self _,
    by rw [hcons]; exact List.not_mem_nil, blocked_not_consumable hr ?_⟩
  refine ⟨1, 0, ⟨e, he, htag⟩, ⟨0, hhalt, pc, hpc, howns⟩, ?_⟩
  rw [hpos]
  decide

end HseMultithreading.Hw4
