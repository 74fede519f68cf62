/-
  File:      HseMultithreading/Hw4/Ownership.lean
  Subject:   WHO OWNS A SLOT of the hw4 queue, in every interleaving, and what it holds.

  In every reachable state each slot is in one of four phases (`SlotPhase`):

  * free: cleared, and nobody works on it;
  * filling: exactly one producer has claimed it, and it holds exactly what that producer has
    written so far;
  * full: it holds exactly the job of the push that published it, and nobody works on it;
  * draining: the consumer has observed it READY, and it holds exactly what the consumer has not
    cleared yet.

  A step moves one slot along this cycle and leaves the phases of the others alone
  (`SlotPhase.frame`); `phase_produce` and `phase_consume` say so for every step of a producer
  and of the consumer. The contents are exact down to the byte, so a torn message or a residue of
  an earlier one has no place to hide.
-/
import HseMultithreading.Hw4.Steps

namespace HseMultithreading.Hw4

/-! ## 1. Contents, step by step -/

/-- What a push that owns a slot has put into it so far. -/
def PushPc.Fills : PushPc → MessageSlot → Prop
  | .putType _ _, slot => slot = ⟨SlotState.writing.code, ⟨MessageType.unknown.code, 0⟩, fun _ => 0⟩
  | .putLength job _, slot => slot = ⟨SlotState.writing.code, ⟨job.type, 0⟩, fun _ => 0⟩
  | .copyByte job _ k, slot => k ≤ job.length ∧
      slot = ⟨SlotState.writing.code, job.header, memcpy (fun _ => 0) job.data k⟩
  | .fetchAdd _, _ | .compareExchange _ _, _ | .done _, _ => False

/-- What a matching pop has gathered once the copy is over: the header of the published job and,
    for a matching type, its message in the caller's memory. -/
def Gathered (job : PopJob) (h : FitHeader) (sent : PushJob) : Prop :=
  h.header = sent.header ∧ (h.header.type = job.expected → job.delivered = sent.message)

/-- What a pop that holds a slot published by `sent` has left in it. -/
def PopPc.Drains (sent : PushJob) : PopPc → MessageSlot → Prop
  | .loadType _ _, slot => slot = sent.fill .cleared
  | .loadLength _ _ type, slot => slot = sent.fill .cleared ∧ type = sent.type
  | .copyByte job _ h k, slot => slot = sent.fill .cleared ∧ h.header = sent.header ∧
      k ≤ sent.length ∧ ∀ j < k, job.buffer j = sent.data j
  | .clearType job _ h, slot => slot = sent.fill .cleared ∧ Gathered job h sent
  | .clearLength job _ h, slot => Gathered job h sent ∧
      slot = ⟨SlotState.ready.code, ⟨MessageType.unknown.code, UInt32.ofNat sent.length⟩,
        (sent.fill .cleared).payload⟩
  | .clearByte job _ h k, slot => Gathered job h sent ∧ k ≤ maxPayloadSize ∧
      slot = ⟨SlotState.ready.code, ⟨MessageType.unknown.code, 0⟩,
        memcpy (sent.fill .cleared).payload (fun _ => 0) k⟩
  | .loadIndex _, _ | .loadState _ _, _ | .storeIndex _ _ _, _ | .done _ _, _ => False

theorem memcpy_zero (dst : Payload) (src : ℕ → UInt8) : memcpy dst src 0 = dst := by
  funext j
  exact if_neg (Nat.not_lt_zero _)

/-- Copying one more byte. -/
theorem memcpy_succ (dst : Payload) (src : ℕ → UInt8) {k : ℕ} (hk : k < maxPayloadSize) :
    Payload.put (memcpy dst src k) ⟨k, hk⟩ (src k) = memcpy dst src (k + 1) := by
  funext j
  by_cases e : j = ⟨k, hk⟩
  · subst e
    simp [Payload.put, memcpy]
  · have hne : j.val ≠ k := fun h => e (Fin.ext h)
    simp only [Payload.put, Function.update_of_ne e, memcpy]
    have hiff : j.val < k ↔ j.val < k + 1 := by omega
    simp only [hiff]

/-- A cleared payload is all zero. -/
theorem memcpy_full (dst : Payload) (src : ℕ → UInt8) :
    memcpy dst src maxPayloadSize = fun j : Fin maxPayloadSize => src j.val := by
  funext j
  exact if_pos j.isLt

theorem PushPc.Fills.state {pc : PushPc} {slot : MessageSlot} (h : pc.Fills slot) :
    slot.state = SlotState.writing.code := by
  cases pc with
  | putType job i => rw [PushPc.Fills] at h; rw [h]
  | putLength job i => rw [PushPc.Fills] at h; rw [h]
  | copyByte job i k => rw [PushPc.Fills] at h; rw [h.2]
  | fetchAdd job => exact h.elim
  | compareExchange job index => exact h.elim
  | done pushed => exact h.elim

theorem PopPc.Drains.state {sent : PushJob} {pc : PopPc} {slot : MessageSlot}
    (h : pc.Drains sent slot) : slot.state = SlotState.ready.code := by
  cases pc with
  | loadType job index => rw [PopPc.Drains] at h; rw [h]; rfl
  | loadLength job index type => rw [PopPc.Drains] at h; rw [h.1]; rfl
  | copyByte job index hd k => rw [PopPc.Drains] at h; rw [h.1]; rfl
  | clearType job index hd => rw [PopPc.Drains] at h; rw [h.1]; rfl
  | clearLength job index hd => rw [PopPc.Drains] at h; rw [h.2]
  | clearByte job index hd k => rw [PopPc.Drains] at h; rw [h.2.2]
  | loadIndex job => exact h.elim
  | loadState job index => exact h.elim
  | storeIndex job index hd => exact h.elim
  | done job popped => exact h.elim

/-! ## 2. The phases of a slot -/

/-- Producer `p` has claimed slot `i` and not yet published it. -/
def System.Owns (s : System) (p : ℕ) (i : Fin queueCapacity) : Prop :=
  ∃ pc, s.producers p = some pc ∧ pc.owns = some i

/-- The consumer has observed slot `i` READY and not yet released it. -/
def System.Held (s : System) (i : Fin queueCapacity) : Prop :=
  ∃ pc, s.consumer = some pc ∧ pc.holds = some i

/-- **The phase of a slot.** -/
inductive SlotPhase (s : System) (i : Fin queueCapacity) : Prop where
  | free (hs : s.queue.slots i = .cleared) (hp : ∀ p, ¬ s.Owns p i) (hc : ¬ s.Held i)
  | filling (p : ℕ) (pc : PushPc) (hpc : s.producers p = some pc) (hi : pc.owns = some i)
      (hs : pc.Fills (s.queue.slots i)) (hu : ∀ p', s.Owns p' i → p' = p) (hc : ¬ s.Held i)
  | full (sent : PushJob) (hs : s.queue.slots i = sent.fill .cleared)
      (hm : (s.history.owner i).message = sent.message) (hp : ∀ p, ¬ s.Owns p i)
      (hc : ¬ s.Held i)
  | draining (sent : PushJob) (pc : PopPc) (hpc : s.consumer = some pc) (hi : pc.holds = some i)
      (hs : pc.Drains sent (s.queue.slots i)) (hm : (s.history.owner i).message = sent.message)
      (ho : s.history.observed = sent.message) (hp : ∀ p, ¬ s.Owns p i)

section Phase

variable {s s' : System} {i : Fin queueCapacity}

/-- **A step that does not touch a slot, its workers or its history leaves its phase alone.** -/
theorem SlotPhase.frame (h : SlotPhase s i) (hs : s'.queue.slots i = s.queue.slots i)
    (hw : s'.history.owner i = s.history.owner i)
    (hp : ∀ p pc, pc.owns = some i → (s'.producers p = some pc ↔ s.producers p = some pc))
    (hc : ∀ pc, pc.holds = some i → (s'.consumer = some pc ↔ s.consumer = some pc))
    (ho : s.Held i → s'.history.observed = s.history.observed) : SlotPhase s' i := by
  have hown : ∀ p, s'.Owns p i → s.Owns p i := fun p ⟨pc, h1, h2⟩ => ⟨pc, (hp p pc h2).mp h1, h2⟩
  have hheld : s'.Held i → s.Held i := fun ⟨pc, h1, h2⟩ => ⟨pc, (hc pc h2).mp h1, h2⟩
  cases h with
  | free h1 h2 h3 =>
      exact .free (hs.trans h1) (fun p hp' => h2 p (hown p hp')) (fun h => h3 (hheld h))
  | filling p pc h1 h2 h3 h4 h5 =>
      exact .filling p pc ((hp p pc h2).mpr h1) h2 (hs ▸ h3) (fun p' hp' => h4 p' (hown p' hp'))
        (fun h => h5 (hheld h))
  | full sent h1 h2 h3 h4 =>
      exact .full sent (hs.trans h1) (hw ▸ h2) (fun p hp' => h3 p (hown p hp'))
        (fun h => h4 (hheld h))
  | draining sent pc h1 h2 h3 h4 h5 h6 =>
      exact .draining sent pc ((hc pc h2).mpr h1) h2 (hs ▸ h3) (hw ▸ h4)
        ((ho ⟨pc, h1, h2⟩).trans h5) (fun p hp' => h6 p (hown p hp'))

/-- The state word of a slot that a producer owns. -/
theorem SlotPhase.owned (h : SlotPhase s i) {p : ℕ} {pc : PushPc} (hpc : s.producers p = some pc)
    (hi : pc.owns = some i) :
    pc.Fills (s.queue.slots i) ∧ (∀ p', s.Owns p' i → p' = p) ∧ ¬ s.Held i := by
  have hown : s.Owns p i := ⟨pc, hpc, hi⟩
  cases h with
  | free _ h2 _ => exact absurd hown (h2 p)
  | filling p' pc' h1 h2 h3 h4 h5 =>
      have e := h4 p hown
      subst e
      rw [hpc] at h1
      obtain rfl := Option.some.inj h1
      exact ⟨h3, h4, h5⟩
  | full _ _ _ h3 _ => exact absurd hown (h3 p)
  | draining _ _ _ _ _ _ _ h6 => exact absurd hown (h6 p)

/-- The slot the consumer holds. -/
theorem SlotPhase.held (h : SlotPhase s i) {pc : PopPc} (hpc : s.consumer = some pc)
    (hi : pc.holds = some i) :
    ∃ sent : PushJob, pc.Drains sent (s.queue.slots i) ∧
      (s.history.owner i).message = sent.message ∧ s.history.observed = sent.message ∧
      ∀ p, ¬ s.Owns p i := by
  have hheld : s.Held i := ⟨pc, hpc, hi⟩
  cases h with
  | free _ _ h3 => exact absurd hheld h3
  | filling _ _ _ _ _ _ h5 => exact absurd hheld h5
  | full _ _ _ _ h4 => exact absurd hheld h4
  | draining sent pc' h1 h2 h3 h4 h5 h6 =>
      rw [hpc] at h1
      obtain rfl := Option.some.inj h1
      exact ⟨sent, h3, h4, h5, h6⟩

/-- An EMPTY slot is free. -/
theorem SlotPhase.of_empty (h : SlotPhase s i)
    (he : (s.queue.slots i).state = SlotState.empty.code) :
    s.queue.slots i = .cleared ∧ (∀ p, ¬ s.Owns p i) ∧ ¬ s.Held i := by
  cases h with
  | free h1 h2 h3 => exact ⟨h1, h2, h3⟩
  | filling p pc _ _ h3 _ _ => rw [h3.state] at he; simp at he
  | full sent h1 _ _ _ => rw [h1, PushJob.fill] at he; simp at he
  | draining sent pc _ _ h3 _ _ _ => rw [h3.state] at he; simp at he

/-- A READY slot that the consumer does not hold is full. -/
theorem SlotPhase.of_ready (h : SlotPhase s i)
    (hr : (s.queue.slots i).state = SlotState.ready.code) (hc : ¬ s.Held i) :
    ∃ sent : PushJob, s.queue.slots i = sent.fill .cleared ∧
      (s.history.owner i).message = sent.message ∧ ∀ p, ¬ s.Owns p i := by
  cases h with
  | free h1 _ _ => rw [h1, MessageSlot.cleared] at hr; simp at hr
  | filling p pc _ _ h3 _ _ => rw [h3.state] at hr; simp at hr
  | full sent h1 h2 h3 _ => exact ⟨sent, h1, h2, h3⟩
  | draining sent pc h1 h2 _ _ _ _ => exact absurd ⟨pc, h1, h2⟩ hc

end Phase

/-! ## 3. Producer steps -/

section Produce

variable {s : System} {p : ℕ} {i : Fin queueCapacity}

/-- Replacing a producer that does not work on a slot by one that does not either changes nothing
    for the slot. -/
theorem update_producer_iff {f : ℕ → Option PushPc} {new : Option PushPc}
    (ho : ∀ pc, f p = some pc → pc.owns ≠ some i) (hn : ∀ pc, new = some pc → pc.owns ≠ some i)
    (p' : ℕ) (pc : PushPc) (hi : pc.owns = some i) :
    Function.update f p new p' = some pc ↔ f p' = some pc := by
  by_cases e : p' = p
  · subst e
    rw [Function.update_self]
    exact ⟨fun h => absurd hi (hn pc h), fun h => absurd hi (ho pc h)⟩
  · rw [Function.update_of_ne e]

theorem produce_observed (h : History) (p : ℕ) (pc : PushPc) :
    (h.produce p pc).observed = h.observed ∧ (h.produce p pc).consumed = h.consumed := by
  cases pc with
  | copyByte job i k => simp only [History.produce]; split <;> exact ⟨rfl, rfl⟩
  | done pushed => cases pushed <;> exact ⟨rfl, rfl⟩
  | _ => exact ⟨rfl, rfl⟩

theorem produce_owner (h : History) (p : ℕ) {pc : PushPc} (ht : pc.touches ≠ some i) :
    (h.produce p pc).owner i = h.owner i := by
  cases pc with
  | copyByte job j k =>
      simp only [History.produce]
      split
      · rfl
      · exact Function.update_of_ne (fun e => ht (congrArg some e.symm)) _ _
  | done pushed => cases pushed <;> rfl
  | _ => rfl

/-- The frame of a producer step: a slot the producer works on neither before nor after. -/
theorem SlotPhase.produce_frame (h : SlotPhase s i) {pc : PushPc} (hpc : s.producers p = some pc)
    (ho : pc.owns ≠ some i) (hn : ∀ pc', (pushStep s.queue pc).2 = some pc' → pc'.owns ≠ some i)
    (hs : (pushStep s.queue pc).1.slots i = s.queue.slots i)
    (hw : (s.history.produce p pc).owner i = s.history.owner i) : SlotPhase (s.produce p pc) i := by
  refine h.frame hs hw ?_ (fun _ _ => Iff.rfl) (fun _ => (produce_observed _ _ _).1)
  refine update_producer_iff (fun pc' h' => ?_) hn
  rw [hpc] at h'
  exact Option.some.inj h' ▸ ho

/-- A producer step leaves every slot alone that it does not touch. -/
theorem SlotPhase.produce_off (h : SlotPhase s i) {pc : PushPc} (hpc : s.producers p = some pc)
    (ht : pc.touches ≠ some i) : SlotPhase (s.produce p pc) i :=
  h.produce_frame hpc (fun ho => ht (PushPc.touches_of_owns ho))
    (fun _ h' ho => ht (pushStep_owns h' ho)) (pushStep_slots _ ht) (produce_owner _ _ ht)

/-- A producer step gives a slot no owner but the producer itself. -/
theorem owns_produce {pc : PushPc} {p' : ℕ} (h : (s.produce p pc).Owns p' i) :
    p' = p ∨ s.Owns p' i := by
  obtain ⟨pc', h1, h2⟩ := h
  by_cases e : p' = p
  · exact .inl e
  · refine .inr ⟨pc', ?_, h2⟩
    simpa only [System.produce, Function.update_of_ne e] using h1

/-- A producer that goes on filling the slot it owns. -/
theorem SlotPhase.produce_fill (h : SlotPhase s i) {pc : PushPc} (pc' : PushPc)
    (hpc : s.producers p = some pc) (hi : pc.owns = some i)
    (hstep : (pushStep s.queue pc).2 = some pc') (hi' : pc'.owns = some i)
    (hs : pc'.Fills ((pushStep s.queue pc).1.slots i)) : SlotPhase (s.produce p pc) i := by
  obtain ⟨_, hu, hc⟩ := h.owned hpc hi
  refine .filling p pc' ?_ hi' hs (fun p' hp' => ?_) hc
  · simp only [System.produce, Function.update_self, hstep]
  · exact (owns_produce hp').elim id (hu p')

theorem pushStep_claim {q : SharedQueueLayout} {job : PushJob} {index : UInt64}
    (he : (q.slots (getSlot index)).state = SlotState.empty.code) :
    pushStep q (.compareExchange job index) =
      (q.setSlot (getSlot index)
        { q.slots (getSlot index) with state := SlotState.writing.code },
        some (.putType job (getSlot index))) := by
  simp [pushStep, he]

theorem pushStep_refused {q : SharedQueueLayout} {job : PushJob} {index : UInt64}
    (he : (q.slots (getSlot index)).state ≠ SlotState.empty.code) :
    pushStep q (.compareExchange job index) = (q, some (.done false)) := by
  simp [pushStep, he]

theorem pushStep_copy {q : SharedQueueLayout} {job : PushJob} {k : ℕ} (hk : k < job.length) :
    pushStep q (.copyByte job i k) =
      (q.setSlot i { q.slots i with
        payload := (q.slots i).payload.put ⟨k, Nat.lt_of_lt_of_le hk job.fits⟩ (job.data k) },
        some (.copyByte job i (k + 1))) := by
  simp [pushStep, hk]

theorem pushStep_publish {q : SharedQueueLayout} {job : PushJob} {k : ℕ} (hk : ¬ k < job.length) :
    pushStep q (.copyByte job i k) =
      (q.setSlot i { q.slots i with state := SlotState.ready.code }, some (.done true)) := by
  simp [pushStep, hk]

/-- The step that publishes writes the entry down; no other step touches owners or entries. -/
theorem produce_publish {h : History} {job : PushJob} {k : ℕ} (hk : ¬ k < job.length) :
    h.produce p (.copyByte job i k) =
      { h with
        owner := Function.update h.owner i (h.entry p job)
        published := h.published ++ [h.entry p job] } := by
  simp [History.produce, hk]

theorem produce_copy {h : History} {job : PushJob} {k : ℕ} (hk : k < job.length) :
    h.produce p (.copyByte job i k) = h := by
  simp [History.produce, hk]

/-- A free slot is claimed. -/
theorem phase_claim {job : PushJob} {index : UInt64} (h : SlotPhase s (getSlot index))
    (hpc : s.producers p = some (.compareExchange job index)) :
    SlotPhase (s.produce p (.compareExchange job index)) (getSlot index) := by
  by_cases he : (s.queue.slots (getSlot index)).state = SlotState.empty.code
  · obtain ⟨hs, hp, hc⟩ := h.of_empty he
    refine .filling p (.putType job (getSlot index)) ?_ rfl ?_ (fun p' hp' => ?_) hc
    · simp only [System.produce, Function.update_self, pushStep_claim he]
    · simp only [System.produce, pushStep_claim he, setSlot_slots_self, hs]
      rfl
    · exact (owns_produce hp').elim id fun ho => absurd ho (hp p')
  · refine h.produce_frame hpc (fun e => by cases e) (fun pc' h' => ?_) ?_ rfl
    · rw [pushStep_refused he] at h'
      obtain rfl := Option.some.inj h'
      exact fun e => by cases e
    · rw [pushStep_refused he]

theorem phase_putType {job : PushJob} (h : SlotPhase s i)
    (hpc : s.producers p = some (.putType job i)) :
    SlotPhase (s.produce p (.putType job i)) i := by
  have hf : s.queue.slots i =
      ⟨SlotState.writing.code, ⟨MessageType.unknown.code, 0⟩, fun _ => 0⟩ := (h.owned hpc rfl).1
  refine h.produce_fill (.putLength job i) hpc rfl rfl rfl ?_
  show (pushStep s.queue (.putType job i)).1.slots i = _
  simp only [pushStep, setSlot_slots_self, hf]

theorem phase_putLength {job : PushJob} (h : SlotPhase s i)
    (hpc : s.producers p = some (.putLength job i)) :
    SlotPhase (s.produce p (.putLength job i)) i := by
  have hf : s.queue.slots i = ⟨SlotState.writing.code, ⟨job.type, 0⟩, fun _ => 0⟩ :=
    (h.owned hpc rfl).1
  refine h.produce_fill (.copyByte job i 0) hpc rfl rfl rfl ⟨Nat.zero_le _, ?_⟩
  simp only [pushStep, setSlot_slots_self, hf, memcpy_zero]
  rfl

theorem phase_copy {job : PushJob} {k : ℕ} (h : SlotPhase s i) (hk : k < job.length)
    (hpc : s.producers p = some (.copyByte job i k)) :
    SlotPhase (s.produce p (.copyByte job i k)) i := by
  obtain ⟨⟨_, hf⟩, _, _⟩ := h.owned hpc rfl
  refine h.produce_fill (.copyByte job i (k + 1)) hpc rfl ?_ rfl ⟨hk, ?_⟩
  · rw [pushStep_copy hk]
  · simp only [pushStep_copy hk, setSlot_slots_self, hf]
    rw [memcpy_succ]

/-- The READY store turns the slot over: it is full, and its producer has let go of it. -/
theorem phase_publish {job : PushJob} {k : ℕ} (h : SlotPhase s i) (hk : ¬ k < job.length)
    (hpc : s.producers p = some (.copyByte job i k)) :
    SlotPhase (s.produce p (.copyByte job i k)) i := by
  obtain ⟨⟨hle, hf⟩, hu, hc⟩ := h.owned hpc rfl
  have hkl : k = job.length := Nat.le_antisymm hle (Nat.not_lt.mp hk)
  refine .full job ?_ ?_ (fun p' ⟨pc', h1, h2⟩ => ?_) hc
  · simp only [System.produce, pushStep_publish hk, setSlot_slots_self, hf]
    rw [hkl]
    rfl
  · simp only [System.produce, produce_publish hk, Function.update_self, History.entry]
  · by_cases e : p' = p
    · subst e
      simp only [System.produce, Function.update_self, pushStep_publish hk] at h1
      obtain rfl := Option.some.inj h1
      cases h2
    · simp only [System.produce, Function.update_of_ne e] at h1
      exact e (hu p' ⟨pc', h1, h2⟩)

/-- **Every producer step keeps the phases.** -/
theorem phase_produce (h : ∀ i, SlotPhase s i) {pc : PushPc} (hpc : s.producers p = some pc)
    (i : Fin queueCapacity) : SlotPhase (s.produce p pc) i := by
  by_cases ht : pc.touches = some i
  · cases pc with
    | fetchAdd job => cases ht
    | compareExchange job index => obtain rfl := Option.some.inj ht; exact phase_claim (h _) hpc
    | putType job j => obtain rfl := Option.some.inj ht; exact phase_putType (h _) hpc
    | putLength job j => obtain rfl := Option.some.inj ht; exact phase_putLength (h _) hpc
    | copyByte job j k =>
        obtain rfl := Option.some.inj ht
        by_cases hk : k < job.length
        · exact phase_copy (h _) hk hpc
        · exact phase_publish (h _) hk hpc
    | done pushed => cases ht
  · exact (h i).produce_off hpc ht

end Produce

/-! ## 4. Consumer steps -/

section Consume

variable {s : System} {i : Fin queueCapacity}

theorem consume_owner (h : History) (q : SharedQueueLayout) (pc : PopPc) :
    (h.consume q pc).owner = h.owner ∧ (h.consume q pc).published = h.published := by
  cases pc with
  | loadState job index => simp only [History.consume]; split <;> exact ⟨rfl, rfl⟩
  | clearByte job index hd k => simp only [History.consume]; split <;> exact ⟨rfl, rfl⟩
  | _ => exact ⟨rfl, rfl⟩

/-- A consumer step leaves every slot alone that is not at its index. -/
theorem SlotPhase.consume_off (h : SlotPhase s i) {pc : PopPc} (hpc : s.consumer = some pc)
    (ht : pc.cursor.map getSlot ≠ some i) : SlotPhase (s.consume pc) i := by
  have ho : pc.holds ≠ some i := fun ho => ht (PopPc.cursor_of_holds ho)
  refine h.frame (popStep_slots _ ht) (congrFun (consume_owner _ _ _).1 i) (fun _ _ _ => Iff.rfl)
    ?_ ?_
  · intro pc' hi
    refine ⟨fun h' => absurd ((popStep_next h').holds hi) ht, fun h' => ?_⟩
    rw [hpc] at h'
    exact absurd hi (Option.some.inj h' ▸ ho)
  · intro ⟨pc', h1, h2⟩
    rw [hpc] at h1
    exact absurd h2 (Option.some.inj h1 ▸ ho)

/-- A consumer that holds nothing before or after a step leaves even the slot at its index
    alone. -/
theorem SlotPhase.consume_idle (h : SlotPhase s i) {pc : PopPc} (hpc : s.consumer = some pc)
    (ho : pc.holds = none) (hn : ∀ pc', (popStep s.queue pc).2 = some pc' → pc'.holds = none)
    (hs : (popStep s.queue pc).1.slots i = s.queue.slots i) : SlotPhase (s.consume pc) i := by
  refine h.frame hs (congrFun (consume_owner _ _ _).1 i) (fun _ _ _ => Iff.rfl) ?_ ?_
  · intro pc' hi
    refine ⟨fun h' => ?_, fun h' => ?_⟩
    · rw [hn pc' h'] at hi
      cases hi
    · rw [hpc] at h'
      obtain rfl := Option.some.inj h'
      rw [ho] at hi
      cases hi
  · intro ⟨pc', h1, h2⟩
    rw [hpc] at h1
    obtain rfl := Option.some.inj h1
    rw [ho] at h2
    cases h2

/-- A consumer that goes on draining the slot it holds. -/
theorem SlotPhase.consume_drain (h : SlotPhase s i) {pc pc' : PopPc} (hpc : s.consumer = some pc)
    (hi : pc.holds = some i) (hstep : (popStep s.queue pc).2 = some pc')
    (hi' : pc'.holds = some i) (ho : (s.history.consume s.queue pc).observed = s.history.observed)
    (hs : ∀ sent, pc.Drains sent (s.queue.slots i) →
      pc'.Drains sent ((popStep s.queue pc).1.slots i)) : SlotPhase (s.consume pc) i := by
  obtain ⟨sent, hd, hm, hob, hp⟩ := h.held hpc hi
  refine .draining sent pc' hstep hi' (hs sent hd) ?_ (ho.trans hob) hp
  show ((s.history.consume s.queue pc).owner i).message = sent.message
  rw [(consume_owner _ _ _).1]
  exact hm

theorem popStep_observe {q : SharedQueueLayout} {job : PopJob} {index : UInt64}
    (hr : (q.slots (getSlot index)).state = SlotState.ready.code) :
    popStep q (.loadState job index) = (q, some (.loadType job index)) := by
  simp [popStep, hr]

theorem popStep_notReady {q : SharedQueueLayout} {job : PopJob} {index : UInt64}
    (hr : (q.slots (getSlot index)).state ≠ SlotState.ready.code) :
    popStep q (.loadState job index) = (q, some (.done job false)) := by
  simp [popStep, hr]

theorem popStep_copy {q : SharedQueueLayout} {job : PopJob} {index : UInt64} {h : FitHeader}
    {k : ℕ} (hk : k < h.header.length.toNat) :
    popStep q (.copyByte job index h k) =
      (q, some (.copyByte (job.put k
        ((q.slots (getSlot index)).payload ⟨k, Nat.lt_of_lt_of_le hk h.fits⟩)) index h
        (k + 1))) := by
  simp [popStep, hk]

theorem popStep_copied {q : SharedQueueLayout} {job : PopJob} {index : UInt64} {h : FitHeader}
    {k : ℕ} (hk : ¬ k < h.header.length.toNat) :
    popStep q (.copyByte job index h k) =
      (q, some (.clearType { job with header := h.header } index h)) := by
  simp [popStep, hk]

theorem popStep_clear {q : SharedQueueLayout} {job : PopJob} {index : UInt64} {h : FitHeader}
    {k : ℕ} (hk : k < maxPayloadSize) :
    popStep q (.clearByte job index h k) =
      (q.setSlot (getSlot index) { q.slots (getSlot index) with
        payload := (q.slots (getSlot index)).payload.put ⟨k, hk⟩ 0 },
        some (.clearByte job index h (k + 1))) := by
  simp [popStep, hk]

theorem popStep_release {q : SharedQueueLayout} {job : PopJob} {index : UInt64} {h : FitHeader}
    {k : ℕ} (hk : ¬ k < maxPayloadSize) :
    popStep q (.clearByte job index h k) =
      (q.setSlot (getSlot index) { q.slots (getSlot index) with state := SlotState.empty.code },
        some (.storeIndex job index h)) := by
  simp [popStep, hk]

theorem consume_clear {h : History} {q : SharedQueueLayout} {job : PopJob} {index : UInt64}
    {hd : FitHeader} {k : ℕ} (hk : k < maxPayloadSize) :
    h.consume q (.clearByte job index hd k) = h := by
  simp [History.consume, hk]

theorem consume_release {h : History} {q : SharedQueueLayout} {job : PopJob} {index : UInt64}
    {hd : FitHeader} {k : ℕ} (hk : ¬ k < maxPayloadSize) :
    h.consume q (.clearByte job index hd k) =
      { h with
        consumed := h.consumed ++
          [⟨{ h.owner (getSlot index) with message := h.observed },
            if hd.header.type = job.expected then some job.delivered else none⟩] } := by
  simp [History.consume, hk]

/-- The four ways out of the header loads. The length of a published job always fits, so the
    first check of the source never fires here. -/
theorem popStep_loadLength {q : SharedQueueLayout} (job : PopJob) {index : UInt64}
    {sent : PushJob} (hs : q.slots (getSlot index) = sent.fill .cleared) (type : UInt32) :
    ∃ h : FitHeader, h.header = ⟨type, UInt32.ofNat sent.length⟩ ∧
      popStep q (.loadLength job index type) =
        (q, some (if job.size < sent.length then .done job false
          else if type = job.expected then .copyByte job index h 0
          else .clearType job index h)) := by
  have hl : (q.slots (getSlot index)).header.length = UInt32.ofNat sent.length := by rw [hs]; rfl
  have hfit : (UInt32.ofNat sent.length).toNat ≤ maxPayloadSize := by
    rw [sent.length_toNat]
    exact sent.fits
  refine ⟨⟨⟨type, UInt32.ofNat sent.length⟩, hfit⟩, rfl, ?_⟩
  simp only [popStep, hl, PopPc.onHeader]
  rw [dif_pos hfit]
  simp only [sent.length_toNat]

/-- A caller's memory that holds the header of a job and its bytes holds its message. -/
theorem delivered_of_job {job : PopJob} {sent : PushJob} (hh : job.header = sent.header)
    (hb : ∀ j < sent.length, job.buffer j = sent.data j) : job.delivered = sent.message := by
  unfold PopJob.delivered PushJob.message
  rw [hh]
  simp only [PushJob.header, sent.length_toNat, Message.mk.injEq, true_and]
  exact readBytes_congr hb

/-- READY is observed: the consumer holds the slot, and the observer has seen the message. -/
theorem phase_observe {job : PopJob} {index : UInt64} (h : SlotPhase s (getSlot index))
    (hpc : s.consumer = some (.loadState job index)) :
    SlotPhase (s.consume (.loadState job index)) (getSlot index) := by
  by_cases hr : (s.queue.slots (getSlot index)).state = SlotState.ready.code
  · have hc : ¬ s.Held (getSlot index) := by
      intro ⟨pc', h1, h2⟩
      rw [hpc] at h1
      obtain rfl := Option.some.inj h1
      cases h2
    obtain ⟨sent, hs, hm, hp⟩ := h.of_ready hr hc
    refine .draining sent (.loadType job index) ?_ rfl ?_ ?_ ?_ hp
    · simp only [System.consume, popStep_observe hr]
    · show (popStep s.queue (.loadState job index)).1.slots (getSlot index) = _
      rw [popStep_observe hr]
      exact hs
    · simp only [System.consume, consume_owner]
      exact hm
    · simp only [System.consume, History.consume, if_pos hr]
      rw [hs, sent.message_fill]
  · refine h.consume_idle hpc rfl (fun pc' h' => ?_) ?_
    · rw [popStep_notReady hr] at h'
      obtain rfl := Option.some.inj h'
      rfl
    · rw [popStep_notReady hr]

theorem phase_loadType {job : PopJob} {index : UInt64} (h : SlotPhase s (getSlot index))
    (hpc : s.consumer = some (.loadType job index)) :
    SlotPhase (s.consume (.loadType job index)) (getSlot index) := by
  refine h.consume_drain hpc rfl rfl rfl rfl fun sent hd => ?_
  have hd' : s.queue.slots (getSlot index) = sent.fill .cleared := hd
  exact ⟨hd', by rw [hd']; rfl⟩

/-- Behind the header loads the consumer lets go of a message that does not fit its buffer,
    copies one of the expected type, and goes straight to clearing any other. -/
theorem phase_loadLength {job : PopJob} {index : UInt64} {type : UInt32}
    (h : SlotPhase s (getSlot index)) (hpc : s.consumer = some (.loadLength job index type)) :
    SlotPhase (s.consume (.loadLength job index type)) (getSlot index) := by
  obtain ⟨sent, ⟨hd, ht⟩, hm, hob, hp⟩ := h.held hpc rfl
  obtain ⟨hdr, hh, hstep⟩ := popStep_loadLength job hd type
  have hh' : hdr.header = sent.header := by rw [hh, ht]; rfl
  by_cases hsz : job.size < sent.length
  · rw [if_pos hsz] at hstep
    refine .full sent (by simp only [System.consume, hstep, hd]) hm hp ?_
    intro ⟨pc', h1, h2⟩
    simp only [System.consume, hstep] at h1
    obtain rfl := Option.some.inj h1
    cases h2
  · rw [if_neg hsz] at hstep
    by_cases hty : type = job.expected
    · rw [if_pos hty] at hstep
      refine .draining sent (.copyByte job index hdr 0) (by simp only [System.consume, hstep]) rfl
        ⟨by simp only [System.consume, hstep, hd], hh', Nat.zero_le _, ?_⟩ hm hob hp
      exact fun j hj => absurd hj (Nat.not_lt_zero j)
    · rw [if_neg hty] at hstep
      refine .draining sent (.clearType job index hdr) (by simp only [System.consume, hstep]) rfl
        ⟨by simp only [System.consume, hstep, hd], hh', fun e => ?_⟩ hm hob hp
      exact absurd ((congrArg MessageHeader.type hh).symm.trans e) hty

theorem phase_copyOut {job : PopJob} {index : UInt64} {hdr : FitHeader} {k : ℕ}
    (h : SlotPhase s (getSlot index)) (hpc : s.consumer = some (.copyByte job index hdr k)) :
    SlotPhase (s.consume (.copyByte job index hdr k)) (getSlot index) := by
  by_cases hk : k < hdr.header.length.toNat
  · refine h.consume_drain hpc rfl (congrArg Prod.snd (popStep_copy hk)) rfl rfl fun sent hd => ?_
    obtain ⟨hs, hh, hle, hb⟩ := hd
    have hkl : k < sent.length := by
      rw [hh] at hk
      exact sent.length_toNat ▸ hk
    refine ⟨by rw [popStep_copy hk]; exact hs, hh, hkl, fun j hj => ?_⟩
    by_cases ej : j = k
    · subst ej
      simp only [PopJob.put, Function.update_self, hs]
      exact if_pos hkl
    · simp only [PopJob.put, Function.update_of_ne ej]
      exact hb j (by omega)
  · refine h.consume_drain hpc rfl (congrArg Prod.snd (popStep_copied hk)) rfl rfl
      fun sent hd => ?_
    obtain ⟨hs, hh, hle, hb⟩ := hd
    have hkl : k = sent.length := by
      have hl := sent.length_toNat
      rw [hh] at hk
      simp only [PushJob.header] at hk
      omega
    refine ⟨by rw [popStep_copied hk]; exact hs, hh, fun _ => ?_⟩
    exact delivered_of_job hh fun j hj => hb j (hkl ▸ hj)

theorem phase_clearType {job : PopJob} {index : UInt64} {hdr : FitHeader}
    (h : SlotPhase s (getSlot index)) (hpc : s.consumer = some (.clearType job index hdr)) :
    SlotPhase (s.consume (.clearType job index hdr)) (getSlot index) := by
  refine h.consume_drain hpc rfl rfl rfl rfl fun sent hd => ⟨hd.2, ?_⟩
  simp only [popStep, setSlot_slots_self, hd.1]
  rfl

theorem phase_clearLength {job : PopJob} {index : UInt64} {hdr : FitHeader}
    (h : SlotPhase s (getSlot index)) (hpc : s.consumer = some (.clearLength job index hdr)) :
    SlotPhase (s.consume (.clearLength job index hdr)) (getSlot index) := by
  refine h.consume_drain hpc rfl rfl rfl rfl fun sent hd => ⟨hd.1, Nat.zero_le _, ?_⟩
  simp only [popStep, setSlot_slots_self, hd.2, memcpy_zero]

/-- The clear goes on, and behind its last byte the EMPTY store gives the slot free. -/
theorem phase_clearByte {job : PopJob} {index : UInt64} {hdr : FitHeader} {k : ℕ}
    (h : SlotPhase s (getSlot index)) (hpc : s.consumer = some (.clearByte job index hdr k)) :
    SlotPhase (s.consume (.clearByte job index hdr k)) (getSlot index) := by
  by_cases hk : k < maxPayloadSize
  · refine h.consume_drain hpc rfl (congrArg Prod.snd (popStep_clear hk)) rfl
      (by rw [consume_clear hk]) fun sent hd => ⟨hd.1, hk, ?_⟩
    rw [popStep_clear hk, setSlot_slots_self, hd.2.2]
    simp only [MessageSlot.mk.injEq, true_and]
    exact memcpy_succ _ (fun _ => 0) hk
  · obtain ⟨sent, ⟨_, hle, hs⟩, _, _, hp⟩ := h.held hpc rfl
    have hkl : k = maxPayloadSize := Nat.le_antisymm hle (Nat.not_lt.mp hk)
    refine .free ?_ hp ?_
    · simp only [System.consume, popStep_release hk, setSlot_slots_self, hs]
      rw [hkl, memcpy_full]
      rfl
    · intro ⟨pc', h1, h2⟩
      simp only [System.consume, popStep_release hk] at h1
      obtain rfl := Option.some.inj h1
      cases h2

/-- **Every consumer step keeps the phases.** -/
theorem phase_consume (h : ∀ i, SlotPhase s i) {pc : PopPc} (hpc : s.consumer = some pc)
    (i : Fin queueCapacity) : SlotPhase (s.consume pc) i := by
  by_cases ht : pc.cursor.map getSlot = some i
  · cases pc with
    | loadIndex job => cases ht
    | loadState job index => obtain rfl := Option.some.inj ht; exact phase_observe (h _) hpc
    | loadType job index => obtain rfl := Option.some.inj ht; exact phase_loadType (h _) hpc
    | loadLength job index type =>
        obtain rfl := Option.some.inj ht
        exact phase_loadLength (h _) hpc
    | copyByte job index hdr k => obtain rfl := Option.some.inj ht; exact phase_copyOut (h _) hpc
    | clearType job index hdr => obtain rfl := Option.some.inj ht; exact phase_clearType (h _) hpc
    | clearLength job index hdr =>
        obtain rfl := Option.some.inj ht
        exact phase_clearLength (h _) hpc
    | clearByte job index hdr k => obtain rfl := Option.some.inj ht; exact phase_clearByte (h _) hpc
    | storeIndex job index hdr =>
        refine (h i).consume_idle hpc rfl (fun pc' h' => ?_) rfl
        obtain rfl := Option.some.inj h'
        rfl
    | done job popped => cases ht
  · exact (h i).consume_off hpc ht

end Consume

end HseMultithreading.Hw4
