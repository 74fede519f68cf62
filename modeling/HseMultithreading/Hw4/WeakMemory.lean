/-
  File:      HseMultithreading/Hw4/WeakMemory.lean
  Subject:   THE hw4 QUEUE UNDER THE MEMORY ORDERS IT NAMES: both calls once more, one access a
             step, on a release/acquire memory instead of one memory for all.

  The atomic words are the two indices and the sixteen slot states; headers and payload bytes are
  plain memory. A load may return an old value, a refused `compare_exchange` may be refused by one,
  and what a thread knows of another's plain writes is what acquire and release hand over.

  * `weakPush`, `weakPop` -- the steps of `try_push_message` and `try_pop_message`, each access
    with the memory order of the source;
  * `Weak.step` -- any number of producers and the consumer; the number in an action picks the
    message that a load returns;
  * `Tracked` -- the invariant of the memory: who owns a slot knows of every access to it, and a
    READY or EMPTY word carries that knowledge (`Tracked.claim`, `publish`, `take`, `release`).
-/
import HseMultithreading.Lib.ReleaseAcquire
import HseMultithreading.Hw4.Delivery

namespace HseMultithreading.Hw4

open StepSystem Bag ReleaseAcquire

/-! ## 1. The memory of the queue -/

/-- The `std::atomic` words of the layout. -/
inductive Atom where
  | writeIndex
  | readIndex
  | state (i : Fin queueCapacity)
  deriving DecidableEq

abbrev Atom.Word : Atom → Type
  | .writeIndex | .readIndex => UInt64
  | .state _ => UInt32

instance : (l : Atom) → DecidableEq l.Word
  | .writeIndex | .readIndex => inferInstanceAs (DecidableEq UInt64)
  | .state _ => inferInstanceAs (DecidableEq UInt32)

/-- The plain words of the layout. -/
inductive Cell where
  | type (i : Fin queueCapacity)
  | length (i : Fin queueCapacity)
  | byte (i : Fin queueCapacity) (k : Fin maxPayloadSize)
  deriving DecidableEq

abbrev Cell.Word : Cell → Type
  | .type _ | .length _ => UInt32
  | .byte _ _ => UInt8

def Cell.slot : Cell → Fin queueCapacity
  | .type i | .length i | .byte i _ => i

inductive Party where
  | producer (p : ℕ)
  | consumer
  deriving DecidableEq

abbrev QueueMemory := Memory Party Atom Atom.Word Cell.Word

/-- The queue made of the newest values. -/
def queueOf (m : QueueMemory) : SharedQueueLayout :=
  ⟨.current, m.newest .writeIndex, m.newest .readIndex,
    fun i => ⟨m.newest (.state i), ⟨m.plain (.type i), m.plain (.length i)⟩,
      fun k => m.plain (.byte i k)⟩⟩

/-- The value of a word in a queue. -/
def Atom.read (q : SharedQueueLayout) : (l : Atom) → l.Word
  | .writeIndex => q.writeIndex
  | .readIndex => q.readIndex
  | .state i => (q.slots i).state

def Cell.read (q : SharedQueueLayout) : (x : Cell) → x.Word
  | .type i => (q.slots i).header.type
  | .length i => (q.slots i).header.length
  | .byte i k => (q.slots i).payload k

/-- The memory behind a queue that everybody has seen. -/
def QueueMemory.of (q : SharedQueueLayout) : QueueMemory :=
  .start (fun l => l.read q) (fun x => x.read q)

/-! ## 2. The two calls -/

/-- One step of a push of producer `p`; a `compare_exchange` compares with message `k`. -/
def weakPush (m : QueueMemory) (p : ℕ) (k : ℕ) : PushPc → Option (QueueMemory × Option PushPc)
  | .fetchAdd job =>
    let r := m.fetchModify (.producer p) .writeIndex (fun w : UInt64 => w + 1) .relaxed
    some (r.1, some (.compareExchange job r.2))
  | .compareExchange job index =>
    (m.compareExchange (.producer p) (.state (getSlot index)) SlotState.empty.code
        SlotState.writing.code .acqRel .acquire k).map
      fun r => (r.1, some (if r.2 then .putType job (getSlot index) else .done false))
  | .putType job i => some (m.put (.producer p) (.type i) job.type, some (.putLength job i))
  | .putLength job i =>
    some (m.put (.producer p) (.length i) (UInt32.ofNat job.length), some (.copyByte job i 0))
  | .copyByte job i j =>
    if h : j < job.length then
      some (m.put (.producer p) (.byte i ⟨j, h.trans_le job.fits⟩) (job.data j),
        some (.copyByte job i (j + 1)))
    else
      some (m.store (.producer p) (.state i) SlotState.ready.code .release, some (.done true))
  | .done _ => some (m, none)

/-- One step of a pop; a load returns message `k`. -/
def weakPop (m : QueueMemory) (k : ℕ) : PopPc → Option (QueueMemory × Option PopPc)
  | .loadIndex job =>
    (m.load .consumer .readIndex k .relaxed).map fun r => (r.1, some (.loadState job r.2))
  | .loadState job index =>
    (m.load .consumer (.state (getSlot index)) k .acquire).map fun r =>
      (r.1, some (if r.2 = SlotState.ready.code then .loadType job index else .done job false))
  | .loadType job index =>
    let r := m.get .consumer (.type (getSlot index))
    some (r.1, some (.loadLength job index r.2))
  | .loadLength job index type =>
    let r := m.get .consumer (.length (getSlot index))
    some (r.1, some (.onHeader job index type r.2))
  | .copyByte job index h j =>
    if hj : j < h.header.length.toNat then
      let r := m.get .consumer (.byte (getSlot index) ⟨j, hj.trans_le h.fits⟩)
      some (r.1, some (.copyByte (job.put j r.2) index h (j + 1)))
    else some (m, some (.clearType { job with header := h.header } index h))
  | .clearType job index h =>
    some (m.put .consumer (.type (getSlot index)) MessageType.unknown.code,
      some (.clearLength job index h))
  | .clearLength job index h =>
    some (m.put .consumer (.length (getSlot index)) (0 : UInt32), some (.clearByte job index h 0))
  | .clearByte job index h j =>
    if hj : j < maxPayloadSize then
      some (m.put .consumer (.byte (getSlot index) ⟨j, hj⟩) (0 : UInt8),
        some (.clearByte job index h (j + 1)))
    else
      some (m.store .consumer (.state (getSlot index)) SlotState.empty.code .release,
        some (.storeIndex job index h))
  | .storeIndex job index h =>
    some (m.store .consumer .readIndex (index + 1 : UInt64) .relaxed,
      some (.done job (h.header.type = job.expected)))
  | .done _ _ => some (m, none)

/-! ## 3. The system -/

structure Weak where
  memory : QueueMemory
  producers : ℕ → Option PushPc
  halted : ℕ → Bool
  consumer : Option PopPc
  history : History

/-- Every party has seen what `init_queue` left. -/
def Weak.start (memory : SharedQueueLayout) : Weak :=
  ⟨.of (initQueue memory), fun _ => none, fun _ => false, none, .start⟩

/-- What the machine of Steps.lean knows of it. -/
def Weak.system (w : Weak) : System :=
  ⟨queueOf w.memory, w.producers, w.halted, w.consumer, w.history⟩

/-- What is written down when the consumer goes on from `pc` to `next`: the message is observed
    when the READY word was READ, wherever it stands in the modification order. -/
def History.weakConsume (h : History) (q : SharedQueueLayout) : PopPc → Option PopPc → History
  | .loadState _ index, some (.loadType _ _) =>
    { h with observed := (q.slots (getSlot index)).message }
  | .loadState _ _, _ => h
  | pc, _ => h.consume q pc

inductive WeakAction where
  | push (p : ℕ) (a : PushArgs)
  | produce (p : ℕ) (k : ℕ)
  | pop (a : PopArgs)
  | consume (k : ℕ)
  | halt (p : ℕ)

/-- Producer `p` calls `try_push_message`. -/
def Weak.callPush (w : Weak) (p : ℕ) (a : PushArgs) : Weak :=
  { w with
    producers := Function.update w.producers p (some a.enter)
    history := { w.history with
      calls := Function.update w.history.calls p (w.history.calls p + 1) } }

/-- Producer `p` has taken the step `r` from `pc`. -/
def Weak.produce (w : Weak) (p : ℕ) (pc : PushPc) (r : QueueMemory × Option PushPc) : Weak :=
  { w with
    memory := r.1
    producers := Function.update w.producers p r.2
    history := w.history.produce p pc }

/-- The consumer has taken the step `r` from `pc`. -/
def Weak.consume (w : Weak) (pc : PopPc) (r : QueueMemory × Option PopPc) : Weak :=
  { w with
    memory := r.1
    consumer := r.2
    history := w.history.weakConsume (queueOf w.memory) pc r.2 }

/-- **One step of the system.** -/
def Weak.step (w : Weak) : WeakAction → Option Weak
  | .push p a =>
    if w.halted p then none
    else match w.producers p with
      | none => some (w.callPush p a)
      | some _ => none
  | .produce p k =>
    if w.halted p then none
    else (w.producers p).bind fun pc => (weakPush w.memory p k pc).map (w.produce p pc)
  | .pop a =>
    match w.consumer with
    | none => some { w with consumer := some a.enter }
    | some _ => none
  | .consume k => w.consumer.bind fun pc => (weakPop w.memory k pc).map (w.consume pc)
  | .halt p => some { w with halted := Function.update w.halted p true }

/-! ## 4. What an access does to the queue -/

section Queue

variable {m : QueueMemory} {t : Party} {i : Fin queueCapacity}

theorem queueOf_writeIndex (v : UInt64) (o : Order) (c : View Party Atom) :
    queueOf (m.append t .writeIndex v o c) = { queueOf m with writeIndex := v } := by
  simp [queueOf, append_newest_of_ne]

theorem queueOf_readIndex (v : UInt64) (o : Order) (c : View Party Atom) :
    queueOf (m.append t .readIndex v o c) = { queueOf m with readIndex := v } := by
  simp [queueOf, append_newest_of_ne]

/-- Two queues that differ in one slot at most. -/
theorem eq_setSlot {q q' : SharedQueueLayout} {slot : MessageSlot} (hm : q'.queueMeta = q.queueMeta)
    (hw : q'.writeIndex = q.writeIndex) (hr : q'.readIndex = q.readIndex)
    (hi : q'.slots i = slot) (hne : ∀ j, j ≠ i → q'.slots j = q.slots j) :
    q' = q.setSlot i slot := by
  cases q'
  cases q
  simp only [SharedQueueLayout.setSlot, SharedQueueLayout.mk.injEq] at *
  refine ⟨hm, hw, hr, funext fun j => ?_⟩
  by_cases e : j = i
  · subst e
    rw [Function.update_self]
    exact hi
  · rw [Function.update_of_ne e]
    exact hne j e

theorem queueOf_state (v : UInt32) (o : Order) (c : View Party Atom) :
    queueOf (m.append t (.state i) v o c) =
      (queueOf m).setSlot i { (queueOf m).slots i with state := v } := by
  refine eq_setSlot rfl ?_ ?_ ?_ fun j hj => ?_
  · exact append_newest_of_ne (by simp) _ _ _
  · exact append_newest_of_ne (by simp) _ _ _
  · simp [queueOf]
  · simp [queueOf, append_newest_of_ne, hj]

theorem queueOf_type (v : UInt32) :
    queueOf (m.put t (.type i) v) = (queueOf m).setSlot i
      { (queueOf m).slots i with header := ⟨v, ((queueOf m).slots i).header.length⟩ } := by
  refine eq_setSlot rfl rfl rfl ?_ fun j hj => ?_
  · simp [queueOf]
  · simp [queueOf, hj]

theorem queueOf_length (v : UInt32) :
    queueOf (m.put t (.length i) v) = (queueOf m).setSlot i
      { (queueOf m).slots i with header := ⟨((queueOf m).slots i).header.type, v⟩ } := by
  refine eq_setSlot rfl rfl rfl ?_ fun j hj => ?_
  · simp [queueOf]
  · simp [queueOf, hj]

theorem queueOf_byte (k : Fin maxPayloadSize) (v : UInt8) :
    queueOf (m.put t (.byte i k) v) = (queueOf m).setSlot i
      { (queueOf m).slots i with payload := ((queueOf m).slots i).payload.put k v } := by
  refine eq_setSlot rfl rfl rfl ?_ fun j hj => ?_
  · have hp : (fun k' => (m.put t (.byte i k) v).plain (.byte i k')) =
        Payload.put (fun k' => m.plain (.byte i k')) k v := by
      funext k'
      by_cases e : k' = k
      · subst e
        simp [Payload.put]
      · simp [Payload.put, e]
    simp [queueOf, hp]
  · simp [queueOf, hj]

end Queue

/-! ## 5. Who knows what -/

/-- The plain words of slot `i`. -/
def Cell.At (i : Fin queueCapacity) (x : Cell) : Prop := x.slot = i

/-- **The invariant of the memory**, given who owns and who holds which slot. -/
structure Tracked (m : QueueMemory) (owns : ℕ → Fin queueCapacity → Prop)
    (held : Fin queueCapacity → Prop) : Prop where
  /-- The consumer has seen the newest read index: nobody else stores it. -/
  index : m.last .readIndex ≤ (m.view .consumer).2 .readIndex
  /-- What the consumer may still read of a state word is READY at most at its end. -/
  fresh : ∀ i k, (m.view .consumer).2 (.state i) ≤ k → k < m.last (.state i) →
    (m.message (.state i) k).value ≠ SlotState.ready.code
  empty : ∀ i, m.newest (.state i) = SlotState.empty.code →
    Covers m.log (m.released (.state i)) (Cell.At i)
  ready : ∀ i, m.newest (.state i) = SlotState.ready.code →
    Covers m.log (m.released (.state i) ⊔ m.view .consumer) (Cell.At i)
  owned : ∀ p i, owns p i → Covers m.log (m.view (.producer p)) (Cell.At i) ∧
    m.last (.state i) ≤ (m.view (.producer p)).2 (.state i)
  drained : ∀ i, held i → Covers m.log (m.view .consumer) (Cell.At i) ∧
    m.last (.state i) ≤ (m.view .consumer).2 (.state i)
  quiet : m.racy = false ∧ m.loose = false

section Tracked

variable {m : QueueMemory} {owns owns' : ℕ → Fin queueCapacity → Prop}
  {held held' : Fin queueCapacity → Prop} {t : Party} {i : Fin queueCapacity}

theorem Tracked.start (q : SharedQueueLayout) :
    Tracked (.of q) (fun _ _ => False) (fun _ => False) where
  index := Nat.le_refl 0
  fresh _ _ _ h := absurd h (Nat.not_lt_zero _)
  empty _ _ _ _ _ h := absurd h List.not_mem_nil
  ready _ _ _ _ _ h := absurd h List.not_mem_nil
  owned _ _ h := h.elim
  drained _ h := h.elim
  quiet := ⟨rfl, rfl⟩

/-- Who lets go of a slot changes nothing. -/
theorem Tracked.sub (h : Tracked m owns held) (ho : ∀ p i, owns' p i → owns p i)
    (hh : ∀ i, held' i → held i) : Tracked m owns' held' :=
  { h with
    owned := fun p i hp => h.owned p i (ho p i hp)
    drained := fun i hi => h.drained i (hh i hi) }

theorem Tracked.plain (h : Tracked m owns held) (f : (x : Cell) → x.Word) :
    Tracked { m with plain := f } owns held :=
  ⟨h.index, h.fresh, h.empty, h.ready, h.owned, h.drained, h.quiet⟩

/-- **Views that only grow, and nothing else**: a load of any message. -/
theorem Tracked.observe (h : Tracked m owns held) (l : Atom) (k : ℕ) (o : Order) :
    Tracked (m.observe t l k o) owns held := by
  have hv := fun u => observe_view_mono (m := m) (t := t) (l := l) k o u
  exact
    { index := le_trans h.index ((hv _).2 _)
      fresh := fun i k' hk => h.fresh i k' (le_trans ((hv _).2 _) hk)
      empty := h.empty
      ready := fun i hi => (h.ready i hi).mono (sup_le_sup_left (hv _) _)
      owned := fun p i hp =>
        ⟨(h.owned p i hp).1.mono (hv _), le_trans (h.owned p i hp).2 ((hv _).2 _)⟩
      drained := fun i hi =>
        ⟨(h.drained i hi).1.mono (hv _), le_trans (h.drained i hi).2 ((hv _).2 _)⟩
      quiet := h.quiet }

/-- A store to an index leaves the slots alone. -/
theorem Tracked.appendIndex (h : Tracked m owns held) {l : Atom} (hl : ∀ i, Atom.state i ≠ l)
    (hr : l = .readIndex → t = .consumer) (hloose : m.last l ≤ (m.view t).2 l) (v : l.Word)
    (o : Order) (c : View Party Atom) : Tracked (m.append t l v o c) owns held := by
  have hv := fun u => append_view_mono (m := m) (t := t) v o c u
  refine
    { index := ?_
      fresh := fun i k hk hlt => ?_
      empty := fun i hi => ?_
      ready := fun i hi => ?_
      owned := fun p i hp => ?_
      drained := fun i hi => ?_
      quiet := ⟨h.quiet.1, (append_loose hloose _ _ _).trans h.quiet.2⟩ }
  · by_cases e : l = .readIndex
    · subst e
      obtain rfl := hr rfl
      exact append_seen _ _ _
    · rw [append_last_of_ne (Ne.symm e)]
      exact le_trans h.index ((hv _).2 _)
  · rw [append_last_of_ne (hl i)] at hlt
    rw [append_message hlt.le]
    exact h.fresh i k (le_trans ((hv _).2 _) hk) hlt
  · rw [append_newest_of_ne (hl i)] at hi
    rw [append_released_of_ne (hl i)]
    exact h.empty i hi
  · rw [append_newest_of_ne (hl i)] at hi
    rw [append_released_of_ne (hl i)]
    exact (h.ready i hi).mono (sup_le_sup_left (hv _) _)
  · rw [append_last_of_ne (hl i)]
    exact ⟨(h.owned p i hp).1.mono (hv _), le_trans (h.owned p i hp).2 ((hv _).2 _)⟩
  · rw [append_last_of_ne (hl i)]
    exact ⟨(h.drained i hi).1.mono (hv _), le_trans (h.drained i hi).2 ((hv _).2 _)⟩

/-- A store to a state word: the other slots are left alone, and this one passes to whoever the
    new word names. -/
theorem Tracked.appendState (h : Tracked m owns held)
    (hloose : m.last (.state i) ≤ (m.view t).2 (.state i)) (v : UInt32) (o : Order)
    (c : View Party Atom) (hfresh : t = .consumer ∨ m.newest (.state i) ≠ SlotState.ready.code)
    (hcov : v ≠ SlotState.writing.code →
      Covers m.log ((m.append t (.state i) v o c).released (.state i)) (Cell.At i))
    (hown : ∀ p, owns' p i → t = .producer p ∧ Covers m.log (m.view t) (Cell.At i))
    (hheld : ¬ held' i) (ho : ∀ p j, j ≠ i → owns' p j → owns p j)
    (hh : ∀ j, j ≠ i → held' j → held j) :
    Tracked (m.append t (.state i) v o c) owns' held' := by
  have hv := fun u => append_view_mono (m := m) (t := t) (l := .state i) v o c u
  have hne : ∀ {j}, j ≠ i → Atom.state j ≠ .state i := fun hj e => hj (Atom.state.inj e)
  refine
    { index := ?_
      fresh := fun j k hk hlt => ?_
      empty := fun j hj => ?_
      ready := fun j hj => ?_
      owned := fun p j hp => ?_
      drained := fun j hj => ?_
      quiet := ⟨h.quiet.1, (append_loose hloose _ _ _).trans h.quiet.2⟩ }
  · rw [append_last_of_ne (by simp)]
    exact le_trans h.index ((hv _).2 _)
  · by_cases e : j = i
    · subst e
      rcases hfresh with rfl | hnew
      · exact absurd (le_trans (append_seen _ _ _) hk) (Nat.not_le.mpr hlt)
      · have hle : k ≤ m.last (.state j) := by
          simp only [Memory.append, Function.update_self] at hlt
          omega
        rw [append_message hle]
        rcases Nat.lt_or_eq_of_le hle with hlt' | rfl
        · exact h.fresh j k (le_trans ((hv _).2 _) hk) hlt'
        · exact hnew
    · rw [append_last_of_ne (hne e)] at hlt
      rw [append_message hlt.le]
      exact h.fresh j k (le_trans ((hv _).2 _) hk) hlt
  · by_cases e : j = i
    · subst e
      rw [append_newest] at hj
      exact hcov (by rw [hj]; decide)
    · rw [append_newest_of_ne (hne e)] at hj
      rw [append_released_of_ne (hne e)]
      exact h.empty j hj
  · by_cases e : j = i
    · subst e
      rw [append_newest] at hj
      exact (hcov (by rw [hj]; decide)).mono le_sup_left
    · rw [append_newest_of_ne (hne e)] at hj
      rw [append_released_of_ne (hne e)]
      exact (h.ready j hj).mono (sup_le_sup_left (hv _) _)
  · by_cases e : j = i
    · subst e
      obtain ⟨rfl, hc⟩ := hown p hp
      exact ⟨hc.mono (hv _), append_seen _ _ _⟩
    · rw [append_last_of_ne (hne e)]
      have hold := h.owned p j (ho p j e hp)
      exact ⟨hold.1.mono (hv _), le_trans hold.2 ((hv _).2 _)⟩
  · by_cases e : j = i
    · subst e
      exact absurd hj hheld
    · rw [append_last_of_ne (hne e)]
      have hold := h.drained j (hh j e hj)
      exact ⟨hold.1.mono (hv _), le_trans hold.2 ((hv _).2 _)⟩

/-- **The claim**: the exchange of EMPTY for WRITING hands the slot to the producer, with all that
    the EMPTY word carried. -/
theorem Tracked.claim (h : Tracked m owns held) {p : ℕ}
    (he : m.newest (.state i) = SlotState.empty.code) (hown : ∀ p', ¬ owns p' i)
    (hheld : ¬ held i) :
    Tracked (m.fetchModify (.producer p) (.state i) (fun _ => SlotState.writing.code) .acqRel).1
      (fun p' j => owns p' j ∨ p' = p ∧ j = i) held := by
  have h' := h.observe (t := .producer p) (.state i) (m.last (.state i)) .acqRel
  refine h'.appendState (observe_seen _ _) _ _ _ (.inr ?_) (fun hw => absurd rfl hw)
    (fun p' hp' => ?_) hheld (fun p' j hj hp' => ?_) (fun _ _ hj => hj)
  · exact fun e => absurd (he.symm.trans e) (by decide : SlotState.empty.code ≠ _)
  · obtain ⟨rfl, -⟩ := hp'.resolve_left (hown p')
    exact ⟨rfl, (h.empty i he).mono (observe_acquires _ rfl)⟩
  · exact hp'.resolve_right fun e => hj e.2

/-- **The publication**: the READY word carries what the producer knows. -/
theorem Tracked.publish (h : Tracked m owns held) {p : ℕ} (hp : owns p i)
    (hw : m.newest (.state i) = SlotState.writing.code) (hown : ∀ p', owns p' i → p' = p)
    (hheld : ¬ held i) :
    Tracked (m.store (.producer p) (.state i) SlotState.ready.code .release)
      (fun p' j => owns p' j ∧ ¬ (p' = p ∧ j = i)) held := by
  obtain ⟨hcov, hseen⟩ := h.owned p i hp
  refine h.appendState hseen _ _ _ (.inr ?_) (fun _ => hcov.mono (append_releases _ rfl _))
    (fun p' hp' => absurd ⟨hown p' hp'.1, rfl⟩ hp'.2) hheld (fun _ _ _ hp' => hp'.1)
    (fun _ _ hj => hj)
  exact fun e => absurd (hw.symm.trans e) (by decide : SlotState.writing.code ≠ _)

/-- **The release**: the EMPTY word carries what the consumer knows. -/
theorem Tracked.release (h : Tracked m owns held) (hi : held i) (hown : ∀ p, ¬ owns p i) :
    Tracked (m.store .consumer (.state i) SlotState.empty.code .release) owns
      (fun j => held j ∧ j ≠ i) := by
  obtain ⟨hcov, hseen⟩ := h.drained i hi
  exact h.appendState hseen _ _ _ (.inl rfl) (fun _ => hcov.mono (append_releases _ rfl _))
    (fun p hp => absurd hp (hown p)) (fun hj => hj.2 rfl) (fun _ _ _ hp => hp)
    (fun _ _ hj => hj.1)

/-- **The take**: who reads READY at the end of the modification order knows all that was done to
    the slot. -/
theorem Tracked.take (h : Tracked m owns held)
    (hr : m.newest (.state i) = SlotState.ready.code) :
    Tracked (m.observe .consumer (.state i) (m.last (.state i)) .acquire) owns
      (fun j => held j ∨ j = i) := by
  have h' := h.observe (t := .consumer) (.state i) (m.last (.state i)) .acquire
  refine { h' with drained := fun j hj => ?_ }
  by_cases e : held j
  · exact h'.drained j e
  · obtain rfl := hj.resolve_left e
    refine ⟨(h.ready j hr).mono (sup_le ?_ ?_), observe_seen _ _⟩
    · exact observe_acquires (m := m) (t := .consumer) (l := .state j) (m.last (.state j)) rfl
    · exact observe_view_mono _ _ _

/-- **The access of an owner**: no race, and the owner knows of it. -/
theorem Tracked.touch (h : Tracked m owns held) {x : Cell} (hx : x.slot = i) (w : Bool)
    (hcov : Covers m.log (m.view t) (Cell.At i))
    (hne : m.newest (.state i) ≠ SlotState.empty.code)
    (hrdy : m.newest (.state i) = SlotState.ready.code → t = .consumer)
    (hown : ∀ p, owns p i → t = .producer p) (hheld : held i → t = .consumer) :
    Tracked (m.touch t x w) owns held := by
  have hv := fun u => touch_view_mono (m := m) (t := t) x w u
  have hoff : ∀ {j}, j ≠ i → ¬ Cell.At j x := fun hj e => hj (e.symm.trans hx)
  refine
    { index := le_trans h.index ((hv _).2 _)
      fresh := fun j k hk => h.fresh j k (le_trans ((hv _).2 _) hk)
      empty := fun j hj => ?_
      ready := fun j hj => ?_
      owned := fun p j hp => ⟨?_, le_trans (h.owned p j hp).2 ((hv _).2 _)⟩
      drained := fun j hj => ⟨?_, le_trans (h.drained j hj).2 ((hv _).2 _)⟩
      quiet := ⟨(hcov.no_race hx w).trans h.quiet.1, h.quiet.2⟩ }
  · by_cases e : j = i
    · exact absurd (e ▸ hj) hne
    · exact (h.empty j hj).elsewhere (hoff e) w
  · by_cases e : j = i
    · subst e
      obtain rfl := hrdy hj
      exact (hcov.touch w).mono le_sup_right
    · exact ((h.ready j hj).mono (sup_le_sup_left (hv _) _)).elsewhere (hoff e) w
  · by_cases e : j = i
    · subst e
      obtain rfl := hown p hp
      exact hcov.touch w
    · exact ((h.owned p j hp).1.mono (hv _)).elsewhere (hoff e) w
  · by_cases e : j = i
    · subst e
      obtain rfl := hheld hj
      exact hcov.touch w
    · exact ((h.drained j hj).1.mono (hv _)).elsewhere (hoff e) w

end Tracked

end HseMultithreading.Hw4
