/-
  File:      HseMultithreading/Hw4/Order.lean
  Subject:   THE ORDER in which the hw4 queue delivers the messages of one producer, in every
             interleaving of pushes none of which is refused.

  A slot carries no lap number: a `compare_exchange` cannot tell whether an EMPTY slot waits for
  its own ticket or for the ticket of an earlier lap. So a producer that is suspended between its
  `fetch_add` and its `compare_exchange` can be overtaken by a whole lap.

  * `CallOrder` -- in every run, the entries a producer publishes carry its call numbers and its
    tickets in increasing order.
  * `Turns` -- as long as no ticket overtakes an earlier one of the same slot, the tickets in the
    ring are those of one window of sixteen, and they are consumed in the order `0, 1, 2, …`.
  * `consumed_in_call_order` -- so the consumer takes the messages of each producer in the order
    of its calls.
  * `overtaken_out_of_order` -- a run in which every push returns `true` and a producer's second
    message is consumed before its first.
-/
import HseMultithreading.Hw4.Delivery

namespace HseMultithreading.Hw4

open StepSystem Bag

/-! ## 1. Where the producers stand -/

/-- The call has not published its message yet, and has not failed. -/
def PushPc.Unpublished : PushPc → Prop
  | .done _ => False
  | _ => True

/-- The call has drawn its ticket and is not over. -/
def PushPc.Ticketed : PushPc → Prop
  | .fetchAdd _ | .done _ => False
  | _ => True

/-- The index with which a push stands before its `compare_exchange`. -/
def PushPc.awaits : PushPc → Option UInt64
  | .compareExchange _ index => some index
  | _ => none

/-- Producer `p` stands at a place with property `f`. -/
def System.At (s : System) (f : PushPc → Prop) (p : ℕ) : Prop :=
  ∃ pc, s.producers p = some pc ∧ f pc

/-- Producer `p` stands before its `compare_exchange` with `index`. -/
def System.Waits (s : System) (p : ℕ) (index : UInt64) : Prop :=
  s.At (fun pc => pc.awaits = some index) p

/-- Steps that neither draw a ticket nor claim nor publish a slot. -/
def PushPc.Quiet : PushPc → Prop
  | .fetchAdd _ | .compareExchange _ _ => False
  | .copyByte job _ k => k < job.length
  | .putType _ _ | .putLength _ _ | .done _ => True

section At

variable {s : System} {f : PushPc → Prop} {p p' : ℕ} {pc : PushPc}

theorem at_iff (hpc : s.producers p = some pc) : s.At f p ↔ f pc := by
  constructor
  · intro ⟨pc', h1, h2⟩
    rw [hpc] at h1
    exact Option.some.inj h1 ▸ h2
  · exact fun h => ⟨pc, hpc, h⟩

theorem at_produce_self :
    (s.produce p pc).At f p ↔ ∃ pc', (pushStep s.queue pc).2 = some pc' ∧ f pc' := by
  simp only [System.At, System.produce, Function.update_self]

theorem at_produce_of_ne (h : p' ≠ p) : (s.produce p pc).At f p' ↔ s.At f p' := by
  simp only [System.At, System.produce, Function.update_of_ne h]

/-- A class of places that a step does not enter or leave. -/
theorem at_produce (hpc : s.producers p = some pc)
    (hf : (∃ pc', (pushStep s.queue pc).2 = some pc' ∧ f pc') ↔ f pc) :
    (s.produce p pc).At f p' ↔ s.At f p' := by
  by_cases e : p' = p
  · subst e
    rw [at_produce_self, at_iff hpc]
    exact hf
  · exact at_produce_of_ne e

/-- A class of places that a step does not enter. -/
theorem At.of_produce (hpc : s.producers p = some pc)
    (hf : ∀ pc', (pushStep s.queue pc).2 = some pc' → f pc' → f pc)
    (h : (s.produce p pc).At f p') : s.At f p' := by
  by_cases e : p' = p
  · subst e
    obtain ⟨pc', h1, h2⟩ := at_produce_self.mp h
    exact ⟨pc, hpc, hf pc' h1 h2⟩
  · exact (at_produce_of_ne e).mp h

end At

/-- A quiet step neither takes nor drops a slot or a ticket. -/
theorem pushStep_quiet {pc : PushPc} (h : pc.Quiet) (q : SharedQueueLayout) :
    (∀ i, (∃ pc', (pushStep q pc).2 = some pc' ∧ pc'.owns = some i) ↔ pc.owns = some i) ∧
    (∀ index, (∃ pc', (pushStep q pc).2 = some pc' ∧ pc'.awaits = some index) ↔
      pc.awaits = some index) ∧
    (pushStep q pc).1.writeIndex = q.writeIndex := by
  cases pc with
  | fetchAdd job => exact h.elim
  | compareExchange job index => exact h.elim
  | putType job i => simp [pushStep, PushPc.owns, PushPc.awaits]
  | putLength job i => simp [pushStep, PushPc.owns, PushPc.awaits]
  | copyByte job i k => simp [pushStep_copy h, PushPc.owns, PushPc.awaits]
  | done pushed => simp [pushStep, PushPc.owns, PushPc.awaits]

/-- What is written down at a quiet step concerns returns only. -/
theorem produce_quiet (pc : PushPc) (h : pc.Quiet) (hs : History) (p : ℕ) :
    (hs.produce p pc).published = hs.published ∧ (hs.produce p pc).calls = hs.calls ∧
      (hs.produce p pc).tickets = hs.tickets ∧ (hs.produce p pc).ticket = hs.ticket := by
  cases pc with
  | fetchAdd job => exact h.elim
  | compareExchange job index => exact h.elim
  | copyByte job i k => rw [produce_copy h]; exact ⟨rfl, rfl, rfl, rfl⟩
  | done pushed => cases pushed <;> exact ⟨rfl, rfl, rfl, rfl⟩
  | _ => exact ⟨rfl, rfl, rfl, rfl⟩

/-! ## 2. Calls and tickets of one producer -/

/-- **The published entries of a producer carry its calls and its tickets in increasing order**,
    and a call in progress comes after all of them. -/
structure CallOrder (s : System) : Prop where
  sorted : s.history.published.Pairwise fun e e' => e.tag.producer = e'.tag.producer →
    e.ticket < e'.ticket ∧ e.tag.call < e'.tag.call
  called : ∀ e ∈ s.history.published,
    e.tag.call ≤ s.history.calls e.tag.producer ∧ e.ticket < s.history.tickets
  earlier : ∀ e ∈ s.history.published, s.At PushPc.Unpublished e.tag.producer →
    e.tag.call < s.history.calls e.tag.producer
  before : ∀ e ∈ s.history.published, s.At PushPc.Ticketed e.tag.producer →
    e.ticket < s.history.ticket e.tag.producer
  apart : ∀ e ∈ s.history.published, ∀ p, s.At PushPc.Ticketed p → e.ticket ≠ s.history.ticket p
  drawn : ∀ p, s.At PushPc.Ticketed p → s.history.ticket p < s.history.tickets
  distinct : ∀ p p', s.At PushPc.Ticketed p → s.At PushPc.Ticketed p' →
    s.history.ticket p = s.history.ticket p' → p = p'

section CallOrder

variable {s s' : System}

theorem callOrder_start (memory : SharedQueueLayout) : CallOrder (.start memory) where
  sorted := .nil
  called _ h := absurd h List.not_mem_nil
  earlier _ h := absurd h List.not_mem_nil
  before _ h := absurd h List.not_mem_nil
  apart _ h := absurd h List.not_mem_nil
  drawn _ := fun ⟨_, h, _⟩ => by cases h
  distinct _ _ := fun ⟨_, h, _⟩ => by cases h

/-- Everything that publishes nothing, draws no ticket and starts no call. -/
theorem CallOrder.frame (h : CallOrder s) (hpub : s'.history.published = s.history.published)
    (hcalls : s'.history.calls = s.history.calls)
    (htickets : s'.history.tickets = s.history.tickets)
    (hticket : s'.history.ticket = s.history.ticket)
    (hU : ∀ p, s'.At PushPc.Unpublished p → s.At PushPc.Unpublished p)
    (hT : ∀ p, s'.At PushPc.Ticketed p → s.At PushPc.Ticketed p) : CallOrder s' where
  sorted := by rw [hpub]; exact h.sorted
  called e he := by rw [hcalls, htickets]; exact h.called e (hpub ▸ he)
  earlier e he hp := by rw [hcalls]; exact h.earlier e (hpub ▸ he) (hU _ hp)
  before e he hp := by rw [hticket]; exact h.before e (hpub ▸ he) (hT _ hp)
  apart e he p hp := by rw [hticket]; exact h.apart e (hpub ▸ he) p (hT _ hp)
  drawn p hp := by rw [hticket, htickets]; exact h.drawn p (hT p hp)
  distinct p p' hp hp' := by rw [hticket]; exact h.distinct p p' (hT p hp) (hT p' hp')

theorem callOrder_callPush (h : CallOrder s) {p : ℕ} (hp : s.producers p = none) (a : PushArgs) :
    CallOrder (s.callPush p a) := by
  have hT : ∀ p', (s.callPush p a).At PushPc.Ticketed p' → s.At PushPc.Ticketed p' := by
    intro p' ⟨pc, h1, h2⟩
    by_cases e : p' = p
    · subst e
      simp only [System.callPush, Function.update_self] at h1
      obtain rfl := Option.some.inj h1
      unfold PushArgs.enter at h2
      split at h2 <;> exact h2.elim
    · exact ⟨pc, by simpa only [System.callPush, Function.update_of_ne e] using h1, h2⟩
  refine ⟨h.sorted, fun e he => ⟨?_, (h.called e he).2⟩, fun e he hU => ?_,
    fun e he hp' => h.before e he (hT _ hp'), fun e he p' hp' => h.apart e he p' (hT _ hp'),
    fun p' hp' => h.drawn p' (hT _ hp'),
    fun p' p'' h1 h2 => h.distinct p' p'' (hT _ h1) (hT _ h2)⟩
  · have := (h.called e he).1
    by_cases e' : e.tag.producer = p
    · simp only [System.callPush, e', Function.update_self]
      rw [e'] at this
      omega
    · simpa only [System.callPush, Function.update_of_ne e'] using this
  · by_cases e' : e.tag.producer = p
    · have := (h.called e he).1
      rw [e'] at this
      simp only [System.callPush, e', Function.update_self]
      omega
    · obtain ⟨pc, h1, h2⟩ := hU
      simp only [System.callPush, Function.update_of_ne e'] at h1 ⊢
      exact h.earlier e he ⟨pc, h1, h2⟩

/-- The `fetch_add` draws a ticket later than all before. -/
theorem callOrder_fetchAdd (h : CallOrder s) {p : ℕ} {job : PushJob}
    (hpc : s.producers p = some (.fetchAdd job)) :
    CallOrder (s.produce p (.fetchAdd job)) := by
  have hU : ∀ p', (s.produce p (.fetchAdd job)).At PushPc.Unpublished p' →
      s.At PushPc.Unpublished p' := fun p' => At.of_produce hpc fun _ _ _ => trivial
  have hself : (s.produce p (.fetchAdd job)).history.ticket p = s.history.tickets :=
    Function.update_self ..
  have hne : ∀ p', p' ≠ p →
      (s.produce p (.fetchAdd job)).history.ticket p' = s.history.ticket p' :=
    fun p' e => Function.update_of_ne e ..
  have htickets : (s.produce p (.fetchAdd job)).history.tickets = s.history.tickets + 1 := rfl
  refine ⟨h.sorted, fun e he => ⟨(h.called e he).1, ?_⟩, fun e he hp => h.earlier e he (hU _ hp),
    fun e he hp => ?_, fun e he p' hp => ?_, fun p' hp => ?_, fun p' p'' h1 h2 e => ?_⟩
  · have := (h.called e he).2
    rw [htickets]
    omega
  · have := (h.called e he).2
    by_cases e' : e.tag.producer = p
    · rw [e', hself]
      exact this
    · rw [hne _ e']
      exact h.before e he ((at_produce_of_ne e').mp hp)
  · have := (h.called e he).2
    by_cases e' : p' = p
    · rw [e', hself]
      omega
    · rw [hne _ e']
      exact h.apart e he p' ((at_produce_of_ne e').mp hp)
  · rw [htickets]
    by_cases e' : p' = p
    · rw [e', hself]
      omega
    · have := h.drawn p' ((at_produce_of_ne e').mp hp)
      rw [hne _ e']
      omega
  · by_cases e1 : p' = p <;> by_cases e2 : p'' = p
    · rw [e1, e2]
    · have := h.drawn p'' ((at_produce_of_ne e2).mp h2)
      rw [e1, hself, hne _ e2] at e
      omega
    · have := h.drawn p' ((at_produce_of_ne e1).mp h1)
      rw [e2, hself, hne _ e1] at e
      omega
    · rw [hne _ e1, hne _ e2] at e
      exact h.distinct p' p'' ((at_produce_of_ne e1).mp h1) ((at_produce_of_ne e2).mp h2) e

/-- The READY store publishes an entry later than all before. -/
theorem callOrder_publish (h : CallOrder s) {p : ℕ} {job : PushJob} {i : Fin queueCapacity} {k : ℕ}
    (hpc : s.producers p = some (.copyByte job i k)) (hk : ¬ k < job.length) :
    CallOrder (s.produce p (.copyByte job i k)) := by
  have hU := (at_iff (f := PushPc.Unpublished) hpc).mpr trivial
  have hT := (at_iff (f := PushPc.Ticketed) hpc).mpr trivial
  -- the publisher itself is done, so what is said about calls in progress is about the others
  have hdone : ∀ f : PushPc → Prop, (∀ b, ¬ f (.done b)) → ∀ p',
      (s.produce p (.copyByte job i k)).At f p' → p' ≠ p ∧ s.At f p' := by
    intro f hf p' hp'
    have e : p' ≠ p := by
      rintro rfl
      obtain ⟨pc', h1, h2⟩ := at_produce_self.mp hp'
      rw [pushStep_publish hk] at h1
      exact hf _ (Option.some.inj h1 ▸ h2)
    exact ⟨e, (at_produce_of_ne e).mp hp'⟩
  have hUn := hdone PushPc.Unpublished fun b h => h
  have hTi := hdone PushPc.Ticketed fun b h => h
  have hpub : (s.produce p (.copyByte job i k)).history =
      { s.history with
        owner := Function.update s.history.owner i (s.history.entry p job)
        published := s.history.published ++ [s.history.entry p job] } := produce_publish hk
  have hmem : ∀ e ∈ (s.produce p (.copyByte job i k)).history.published,
      e ∈ s.history.published ∨ e = s.history.entry p job := by
    intro e he
    rw [hpub] at he
    simpa using he
  refine ⟨?_, fun e he => ?_, fun e he hp => ?_, fun e he hp => ?_, fun e he p' hp => ?_,
    fun p' hp => ?_, fun p' p'' h1 h2 => ?_⟩
  · rw [hpub]
    refine List.pairwise_append.mpr ⟨h.sorted, List.pairwise_singleton _ _, fun e he e' he' => ?_⟩
    obtain rfl := List.mem_singleton.mp he'
    intro hpe
    have hpe' : e.tag.producer = p := hpe
    have h1 := h.before e he (hpe' ▸ hT)
    have h2 := h.earlier e he (hpe' ▸ hU)
    rw [hpe'] at h1 h2
    exact ⟨h1, h2⟩
  · rw [hpub]
    rcases hmem e he with he | rfl
    · exact h.called e he
    · exact ⟨Nat.le_refl _, h.drawn p hT⟩
  · rw [hpub]
    rcases hmem e he with he | rfl
    · exact h.earlier e he (hUn _ hp).2
    · exact absurd rfl (hUn _ hp).1
  · rw [hpub]
    rcases hmem e he with he | rfl
    · exact h.before e he (hTi _ hp).2
    · exact absurd rfl (hTi _ hp).1
  · rw [hpub]
    obtain ⟨hne, hp'⟩ := hTi _ hp
    rcases hmem e he with he | rfl
    · exact h.apart e he p' hp'
    · exact fun e => hne (h.distinct p p' hT hp' e).symm
  · rw [hpub]
    exact h.drawn p' (hTi _ hp).2
  · rw [hpub]
    exact h.distinct p' p'' (hTi _ h1).2 (hTi _ h2).2

theorem callOrder_produce (h : CallOrder s) {p : ℕ} {pc : PushPc}
    (hpc : s.producers p = some pc) : CallOrder (s.produce p pc) := by
  -- a step that neither draws nor publishes leaves the records alone and enters no class
  have hquiet : pc.Unpublished → pc.Ticketed →
      (s.history.produce p pc).published = s.history.published →
      (s.history.produce p pc).calls = s.history.calls →
      (s.history.produce p pc).tickets = s.history.tickets →
      (s.history.produce p pc).ticket = s.history.ticket → CallOrder (s.produce p pc) :=
    fun hu ht h1 h2 h3 h4 => h.frame h1 h2 h3 h4 (fun _ => At.of_produce hpc fun _ _ _ => hu)
      (fun _ => At.of_produce hpc fun _ _ _ => ht)
  cases pc with
  | fetchAdd job => exact callOrder_fetchAdd h hpc
  | compareExchange job index => exact hquiet trivial trivial rfl rfl rfl rfl
  | putType job i => exact hquiet trivial trivial rfl rfl rfl rfl
  | putLength job i => exact hquiet trivial trivial rfl rfl rfl rfl
  | copyByte job i k =>
      by_cases hk : k < job.length
      · obtain ⟨h1, h2, h3, h4⟩ := produce_quiet (.copyByte job i k) hk s.history p
        exact hquiet trivial trivial h1 h2 h3 h4
      · exact callOrder_publish h hpc hk
  | done pushed =>
      obtain ⟨h1, h2, h3, h4⟩ := produce_quiet (.done pushed) trivial s.history p
      refine h.frame h1 h2 h3 h4 (fun _ => At.of_produce hpc fun pc' h' => ?_)
        (fun _ => At.of_produce hpc fun pc' h' => ?_) <;> cases h'

theorem consume_calls (h : History) (q : SharedQueueLayout) (pc : PopPc) :
    (h.consume q pc).calls = h.calls ∧ (h.consume q pc).tickets = h.tickets ∧
      (h.consume q pc).ticket = h.ticket := by
  cases pc with
  | loadState job index => simp only [History.consume]; split <;> exact ⟨rfl, rfl, rfl⟩
  | clearByte job index hd k => simp only [History.consume]; split <;> exact ⟨rfl, rfl, rfl⟩
  | _ => exact ⟨rfl, rfl, rfl⟩

theorem callOrder_step {a : Action} (h : CallOrder s) (hs : s.step a = some s') : CallOrder s' := by
  rcases step_cases hs with ⟨p, args, _, _, hp, rfl⟩ | ⟨p, pc, _, _, hp, rfl⟩ | ⟨args, _, _, rfl⟩ |
    ⟨pc, _, _, rfl⟩ | ⟨p, _, rfl⟩
  · exact callOrder_callPush h hp args
  · exact callOrder_produce h hp
  · exact h.frame rfl rfl rfl rfl (fun _ => id) (fun _ => id)
  · obtain ⟨h1, h2, h3⟩ := consume_calls s.history s.queue pc
    exact h.frame (consume_owner _ _ _).2 h1 h2 h3 (fun _ => id) (fun _ => id)
  · exact h.frame rfl rfl rfl rfl (fun _ => id) (fun _ => id)

end CallOrder

/-- **In every run**, whatever is refused or overtaken. -/
theorem callOrder_reach {memory : SharedQueueLayout} {C : System → Action → Prop} {s : System}
    (h : ReachWhere System.step C (.start memory) s) : CallOrder s :=
  h.invariant (callOrder_start memory) fun _ _ _ hI _ hs => callOrder_step hI hs

/-- Of two published entries of a producer, the one with the smaller ticket is the earlier call. -/
theorem CallOrder.call_lt {s : System} (h : CallOrder s) {e e' : Entry}
    (he : e ∈ s.history.published) (he' : e' ∈ s.history.published)
    (hp : e.tag.producer = e'.tag.producer) (ht : e.ticket < e'.ticket) :
    e.tag.call < e'.tag.call := by
  have hall := List.pairwise_iff_getElem.mp h.sorted
  obtain ⟨i, hi, rfl⟩ := List.getElem_of_mem he
  obtain ⟨j, hj, rfl⟩ := List.getElem_of_mem he'
  rcases Nat.lt_trichotomy i j with hij | rfl | hij
  · exact (hall i j hi hj hij hp).2
  · exact absurd ht (Nat.lt_irrefl _)
  · have hlt := (hall j i hj hi hij hp.symm).1
    omega

/-! ## 3. One window of tickets -/

/-- Slot `i` is taken under ticket `t`: it is READY with an entry of that ticket, or a producer
    that holds the ticket is writing it. -/
def System.Occupies (s : System) (i : Fin queueCapacity) (t : ℕ) : Prop :=
  (∃ e, s.pending i = some e ∧ e.ticket = t) ∨ ∃ p, s.Owns p i ∧ s.history.ticket p = t

/-- One while a pop has released its slot and not yet moved `read_index`. -/
def PopPc.storing : PopPc → ℕ
  | .storeIndex _ _ _ => 1
  | _ => 0

def System.storing (s : System) : ℕ := (s.consumer.map PopPc.storing).getD 0

/-- **The tickets in the ring are those of one window of sixteen**, which starts at the number of
    messages consumed: every ticket from there on is in its slot or waits for it, and the
    messages were consumed in the order of their tickets. -/
structure Turns (s : System) : Prop where
  write : s.queue.writeIndex.toNat % 16 = s.history.tickets % 16
  read : (s.queue.readIndex.toNat + s.storing) % 16 = s.history.consumed.length % 16
  order : s.history.consumed.map (·.entry.ticket) = List.range s.history.consumed.length
  slot : ∀ p index, s.Waits p index → index.toNat % 16 = s.history.ticket p % 16
  waiting : ∀ p index, s.Waits p index → s.history.consumed.length ≤ s.history.ticket p
  window : ∀ i t, s.Occupies i t → t % 16 = i.val ∧ s.history.consumed.length ≤ t ∧
    t < s.history.consumed.length + 16
  queued : ∀ t, s.history.consumed.length ≤ t → t < s.history.tickets →
    (∃ p index, s.Waits p index ∧ s.history.ticket p = t) ∨ ∃ i, s.Occupies i t

section Turns

variable {s s' : System}

theorem turns_start (memory : SharedQueueLayout) : Turns (.start memory) where
  write := rfl
  read := rfl
  order := rfl
  slot _ _ := fun ⟨_, h, _⟩ => by cases h
  waiting _ _ := fun ⟨_, h, _⟩ => by cases h
  window i t h := by
    rcases h with ⟨e, h, _⟩ | ⟨p, ⟨pc, h, _⟩, _⟩
    · have hn : (System.start memory).pending i = none :=
        if_neg (by show ¬ SlotState.empty.code = SlotState.ready.code; decide)
      rw [hn] at h
      cases h
    · cases h
  queued _ _ h := absurd h (Nat.not_lt_zero _)

/-- A slot that is taken is not EMPTY. -/
theorem Occupies.not_empty {i : Fin queueCapacity} {t : ℕ} (hI : Inv s) (h : s.Occupies i t) :
    (s.queue.slots i).state ≠ SlotState.empty.code := by
  rcases h with ⟨e, h, _⟩ | ⟨p, ⟨pc, h1, h2⟩, _⟩
  · unfold System.pending at h
    split at h
    · rename_i hr
      rw [hr]
      simp
    · cases h
  · rw [((hI.phase i).owned h1 h2).1.state]
    simp

/-- Everything that draws, claims and releases nothing. -/
theorem Turns.frame (h : Turns s) (hw : s'.queue.writeIndex = s.queue.writeIndex)
    (hr : (s'.queue.readIndex.toNat + s'.storing) % 16 = (s.queue.readIndex.toNat + s.storing) % 16)
    (hc : s'.history.consumed = s.history.consumed)
    (htickets : s'.history.tickets = s.history.tickets)
    (hticket : s'.history.ticket = s.history.ticket)
    (hW : ∀ p index, s'.Waits p index ↔ s.Waits p index)
    (hO : ∀ i t, s'.Occupies i t ↔ s.Occupies i t) : Turns s' where
  write := by rw [hw, htickets]; exact h.write
  read := by rw [hr, hc]; exact h.read
  order := by rw [hc]; exact h.order
  slot p index hp := by rw [hticket]; exact h.slot p index ((hW _ _).mp hp)
  waiting p index hp := by rw [hticket, hc]; exact h.waiting p index ((hW _ _).mp hp)
  window i t ht := by rw [hc]; exact h.window i t ((hO _ _).mp ht)
  queued t h1 h2 := by
    rw [hc] at h1
    rw [htickets] at h2
    rw [hticket]
    rcases h.queued t h1 h2 with ⟨p, index, hp, e⟩ | ⟨i, hi⟩
    · exact .inl ⟨p, index, (hW _ _).mpr hp, e⟩
    · exact .inr ⟨i, (hO _ _).mpr hi⟩

theorem Inv.consumed_published (h : Inv s) {c : Consumed} (hc : c ∈ s.history.consumed) :
    c.entry ∈ s.history.published := by
  have hm : c.entry ∈ (s.history.published : Multiset Entry) := by
    rw [h.bag]
    exact Multiset.mem_add.mpr (.inl (Multiset.mem_coe.mpr (List.mem_map_of_mem hc)))
  exact Multiset.mem_coe.mp hm

theorem Inv.pending_published (h : Inv s) {i : Fin queueCapacity} {e : Entry}
    (he : s.pending i = some e) : e ∈ s.history.published := by
  have hm : e ∈ (s.history.published : Multiset Entry) := by
    rw [h.bag]
    exact Multiset.mem_add.mpr (.inr (mem_bagOf.mpr ⟨i, he⟩))
  exact Multiset.mem_coe.mp hm

theorem Waits.ticketed {p : ℕ} {index : UInt64} (h : s.Waits p index) :
    s.At PushPc.Ticketed p := by
  obtain ⟨pc, h1, h2⟩ := h
  refine ⟨pc, h1, ?_⟩
  cases pc with
  | compareExchange job index => trivial
  | _ => cases h2

/-- No more messages are consumed than tickets drawn. -/
theorem Turns.consumed_le (hI : Inv s) (hA : CallOrder s) (h : Turns s) :
    s.history.consumed.length ≤ s.history.tickets := by
  rcases Nat.eq_zero_or_pos s.history.consumed.length with h0 | hpos
  · omega
  · have hmem : s.history.consumed.length - 1 ∈ s.history.consumed.map (·.entry.ticket) := by
      rw [h.order, List.mem_range]
      omega
    obtain ⟨c, hc, e⟩ := List.mem_map.mp hmem
    have := (hA.called _ (hI.consumed_published hc)).2
    omega

theorem turns_callPush (h : Turns s) {p : ℕ} (hp : s.producers p = none) (a : PushArgs) :
    Turns (s.callPush p a) := by
  -- the caller was idle, and what it enters neither waits nor owns
  have hat : ∀ f : PushPc → Prop, (∀ job, ¬ f (.fetchAdd job)) → ¬ f (.done false) → ∀ p',
      (s.callPush p a).At f p' ↔ s.At f p' := by
    intro f h1 h2 p'
    by_cases e : p' = p
    · subst e
      constructor
      · intro ⟨pc, hpc, hf⟩
        simp only [System.callPush, Function.update_self] at hpc
        obtain rfl := Option.some.inj hpc
        unfold PushArgs.enter at hf
        split at hf
        · exact absurd hf h2
        · exact absurd hf (h1 _)
      · intro ⟨pc, hpc, _⟩
        rw [hp] at hpc
        cases hpc
    · simp only [System.At, System.callPush, Function.update_of_ne e]
  refine h.frame rfl rfl rfl rfl rfl (fun p' index => ?_) (fun i t => ?_)
  · exact hat _ (fun _ e => by cases e) (fun e => by cases e) p'
  · refine or_congr Iff.rfl (exists_congr fun p' => and_congr ?_ Iff.rfl)
    exact hat (fun pc => pc.owns = some i) (fun _ e => by cases e) (fun e => by cases e) p'

/-- The `fetch_add`: one more ticket, which waits for its slot. -/
theorem turns_fetchAdd (hI : Inv s) (hA : CallOrder s) (h : Turns s) {p : ℕ} {job : PushJob}
    (hpc : s.producers p = some (.fetchAdd job)) : Turns (s.produce p (.fetchAdd job)) := by
  have hself : (s.produce p (.fetchAdd job)).history.ticket p = s.history.tickets :=
    Function.update_self ..
  have hne : ∀ p', p' ≠ p →
      (s.produce p (.fetchAdd job)).history.ticket p' = s.history.ticket p' :=
    fun p' e => Function.update_of_ne e ..
  have hW : ∀ p' index, (s.produce p (.fetchAdd job)).Waits p' index ↔
      (p' = p ∧ index = s.queue.writeIndex) ∨ (p' ≠ p ∧ s.Waits p' index) := by
    intro p' index
    by_cases e : p' = p
    · subst e
      simp [System.Waits, at_produce_self, pushStep, PushPc.awaits, eq_comm]
    · simp [System.Waits, at_produce_of_ne e, e]
  have hO : ∀ i t, (s.produce p (.fetchAdd job)).Occupies i t ↔ s.Occupies i t := by
    intro i t
    unfold System.Occupies
    rw [(pending_produce hI hpc fun _ _ _ e => by cases e).1]
    refine or_congr Iff.rfl (exists_congr fun p' => ?_)
    by_cases e : p' = p
    · subst e
      have h1 : ¬ s.Owns p' i := fun ho => by cases (at_iff hpc).mp ho
      have h2 : ¬ (s.produce p' (.fetchAdd job)).Owns p' i := fun ho => by
        obtain ⟨pc', h1, h2⟩ := at_produce_self.mp ho
        obtain rfl := Option.some.inj h1
        cases h2
      simp only [h1, h2, false_and]
    · rw [hne _ e]
      exact and_congr (at_produce_of_ne e) Iff.rfl
  have hcon : (s.produce p (.fetchAdd job)).history.consumed = s.history.consumed := rfl
  have hlen := h.consumed_le hI hA
  refine ⟨?_, h.read, h.order, fun p' index hp => ?_, fun p' index hp => ?_,
    fun i t ht => h.window i t ((hO i t).mp ht), fun t h1 h2 => ?_⟩
  · show (s.queue.writeIndex + 1).toNat % 16 = (s.history.tickets + 1) % 16
    have hw := h.write
    have hlt := s.queue.writeIndex.toNat_lt
    rw [UInt64.toNat_add, UInt64.toNat_one]
    omega
  · rcases (hW p' index).mp hp with ⟨rfl, rfl⟩ | ⟨e, hp⟩
    · rw [hself]
      exact h.write
    · rw [hne _ e]
      exact h.slot p' index hp
  · rcases (hW p' index).mp hp with ⟨rfl, rfl⟩ | ⟨e, hp⟩
    · rw [hself]
      exact hlen
    · rw [hne _ e]
      exact h.waiting p' index hp
  · have h2' : t < s.history.tickets + 1 := h2
    by_cases e : t = s.history.tickets
    · exact .inl ⟨p, s.queue.writeIndex, (hW _ _).mpr (.inl ⟨rfl, rfl⟩), by rw [hself, e]⟩
    · rcases h.queued t h1 (by omega) with ⟨p', index, hp, e'⟩ | ⟨i, hi⟩
      · have hp' : p' ≠ p := by
          rintro rfl
          cases (at_iff hpc).mp hp
        exact .inl ⟨p', index, (hW _ _).mpr (.inr ⟨hp', hp⟩), by rw [hne _ hp', e']⟩
      · exact .inr ⟨i, (hO i t).mpr hi⟩

/-- **No ticket overtakes an earlier one of its slot**: when a producer executes its
    `compare_exchange`, no other producer still waits with an earlier ticket for the same slot. -/
def System.Unovertaken (s : System) : Action → Prop
  | .produce p => ∀ index, s.Waits p index → ∀ p' index', s.Waits p' index' →
      getSlot index' = getSlot index → s.history.ticket p ≤ s.history.ticket p'
  | _ => True

/-- A ticket that finds its slot EMPTY and overtakes nobody lies in the window: the ticket of the
    window that belongs to this slot could neither wait nor have taken it. -/
theorem Turns.ticket_lt (hI : Inv s) (hA : CallOrder s) (h : Turns s) {p : ℕ} {index : UInt64}
    (hp : s.Waits p index) (he : (s.queue.slots (getSlot index)).state = SlotState.empty.code)
    (hu : s.Unovertaken (.produce p)) :
    s.history.ticket p < s.history.consumed.length + 16 := by
  have hslot := h.slot p index hp
  have hge := h.waiting p index hp
  have hdrawn := hA.drawn p (Waits.ticketed hp)
  refine Nat.lt_of_not_le fun hle => ?_
  obtain ⟨t, ht⟩ : ∃ t, t = s.history.consumed.length +
    (s.history.ticket p - s.history.consumed.length) % 16 := ⟨_, rfl⟩
  rcases h.queued t (by omega) (by omega) with ⟨p', index', hp', e⟩ | ⟨i, hi⟩
  · have hs' := h.slot p' index' hp'
    have heq : getSlot index' = getSlot index := by
      apply Fin.ext
      rw [getSlot_val, getSlot_val]
      omega
    have := hu index hp p' index' hp' heq
    omega
  · have hw := (h.window i t hi).1
    have heq : i = getSlot index := by
      apply Fin.ext
      rw [getSlot_val]
      omega
    exact Occupies.not_empty hI (heq ▸ hi) he

/-- The successful `compare_exchange`: a ticket goes from waiting into its slot. -/
theorem turns_claim (hI : Inv s) (hA : CallOrder s) (h : Turns s) {p : ℕ} {job : PushJob}
    {index : UInt64} (hpc : s.producers p = some (.compareExchange job index))
    (he : (s.queue.slots (getSlot index)).state = SlotState.empty.code)
    (hu : s.Unovertaken (.produce p)) : Turns (s.produce p (.compareExchange job index)) := by
  have hp : s.Waits p index := ⟨_, hpc, rfl⟩
  have hlt := h.ticket_lt hI hA hp he hu
  have hstep : pushStep s.queue (.compareExchange job index) = _ := pushStep_claim he
  have hW : ∀ p' index', (s.produce p (.compareExchange job index)).Waits p' index' ↔
      p' ≠ p ∧ s.Waits p' index' := by
    intro p' index'
    by_cases e : p' = p
    · subst e
      simp [System.Waits, at_produce_self, hstep, PushPc.awaits]
    · simp [System.Waits, at_produce_of_ne e, e]
  have hO : ∀ i t, (s.produce p (.compareExchange job index)).Occupies i t ↔
      s.Occupies i t ∨ (i = getSlot index ∧ t = s.history.ticket p) := by
    intro i t
    unfold System.Occupies
    rw [(pending_produce hI hpc fun _ _ _ e => by cases e).1, or_assoc]
    refine or_congr Iff.rfl ?_
    constructor
    · intro ⟨p', ho, ht⟩
      by_cases e : p' = p
      · subst e
        obtain ⟨pc', h1, h2⟩ := at_produce_self.mp ho
        rw [hstep] at h1
        obtain rfl := Option.some.inj h1
        exact .inr ⟨(Option.some.inj h2).symm, ht.symm⟩
      · exact .inl ⟨p', (at_produce_of_ne e).mp ho, ht⟩
    · rintro (⟨p', ho, ht⟩ | ⟨rfl, rfl⟩)
      · have e : p' ≠ p := by
          rintro rfl
          cases (at_iff hpc).mp ho
        exact ⟨p', (at_produce_of_ne e).mpr ho, ht⟩
      · exact ⟨p, at_produce_self.mpr ⟨_, congrArg Prod.snd hstep, rfl⟩, rfl⟩
  refine ⟨?_, ?_, h.order, fun p' index' hp' => h.slot p' index' ((hW _ _).mp hp').2,
    fun p' index' hp' => h.waiting p' index' ((hW _ _).mp hp').2, fun i t ht => ?_,
    fun t h1 h2 => ?_⟩
  · show (pushStep s.queue _).1.writeIndex.toNat % 16 = _
    rw [hstep]
    exact h.write
  · show ((pushStep s.queue _).1.readIndex.toNat + s.storing) % 16 = _
    rw [pushStep_readIndex]
    exact h.read
  · rcases (hO i t).mp ht with ht | ⟨rfl, rfl⟩
    · exact h.window i t ht
    · refine ⟨?_, h.waiting p index hp, hlt⟩
      rw [getSlot_val]
      exact (h.slot p index hp).symm
  · rcases h.queued t h1 h2 with ⟨p', index', hp', e⟩ | ⟨i, hi⟩
    · by_cases e' : p' = p
      · subst e'
        exact .inr ⟨getSlot index, (hO _ _).mpr (.inr ⟨rfl, e.symm⟩)⟩
      · exact .inl ⟨p', index', (hW _ _).mpr ⟨e', hp'⟩, e⟩
    · exact .inr ⟨i, (hO _ _).mpr (.inl hi)⟩

theorem turns_quiet (hI : Inv s) (h : Turns s) {p : ℕ} {pc : PushPc}
    (hpc : s.producers p = some pc) (hq : pc.Quiet) : Turns (s.produce p pc) := by
  obtain ⟨hown, hawait, hwrite⟩ := pushStep_quiet hq s.queue
  obtain ⟨_, _, htickets, hticket⟩ := produce_quiet pc hq s.history p
  have hnp : ∀ job i k, pc = .copyByte job i k → k < job.length := by
    rintro job i k rfl
    exact hq
  refine h.frame hwrite ?_ (produce_observed _ _ _).2 htickets hticket
    (fun p' index => at_produce hpc (hawait index)) (fun i t => ?_)
  · show ((pushStep s.queue pc).1.readIndex.toNat + s.storing) % 16 = _
    rw [pushStep_readIndex]
  · unfold System.Occupies
    rw [(pending_produce hI hpc hnp).1]
    refine or_congr Iff.rfl (exists_congr fun p' => and_congr (at_produce hpc (hown i)) ?_)
    show (s.history.produce p pc).ticket p' = t ↔ _
    rw [hticket]

/-- The READY store: the slot stays taken under the same ticket. -/
theorem turns_publish (hI : Inv s) (h : Turns s) {p : ℕ} {job : PushJob} {i : Fin queueCapacity}
    {k : ℕ} (hpc : s.producers p = some (.copyByte job i k)) (hk : ¬ k < job.length) :
    Turns (s.produce p (.copyByte job i k)) := by
  have hstep := pushStep_publish (q := s.queue) (i := i) hk
  have hhist : (s.produce p (.copyByte job i k)).history = _ := produce_publish hk
  have hown : s.Owns p i := ⟨_, hpc, rfl⟩
  obtain ⟨hf, hu, _⟩ := (hI.phase i).owned hpc rfl
  have hnone : s.pending i = none := by
    unfold System.pending
    rw [hf.state]
    rfl
  have hsome : (s.produce p (.copyByte job i k)).pending i = some (s.history.entry p job) := by
    simp [System.pending, System.produce, hstep, produce_publish hk]
  -- the publisher drops the slot, and the entry it leaves there carries its ticket
  have hO : ∀ j t, (s.produce p (.copyByte job i k)).Occupies j t ↔ s.Occupies j t := by
    intro j t
    by_cases e : j = i
    · subst e
      unfold System.Occupies
      rw [hsome, hnone, hhist]
      constructor
      · rintro (⟨e, he, ht⟩ | ⟨p', ho, _⟩)
        · obtain rfl := Option.some.inj he
          exact .inr ⟨p, hown, ht⟩
        · have hp' : p' ≠ p := by
            rintro rfl
            obtain ⟨pc', h1, h2⟩ := at_produce_self.mp ho
            rw [hstep] at h1
            obtain rfl := Option.some.inj h1
            cases h2
          exact absurd (hu p' ((at_produce_of_ne hp').mp ho)) hp'
      · rintro (⟨e, he, _⟩ | ⟨p', ho, ht⟩)
        · cases he
        · obtain rfl := hu p' ho
          exact .inl ⟨_, rfl, ht⟩
    · have ht : (PushPc.copyByte job i k).touches ≠ some j := fun e' => e (Option.some.inj e').symm
      unfold System.Occupies
      rw [hhist]
      refine or_congr ?_ (exists_congr fun p' => and_congr (at_produce hpc ?_) Iff.rfl)
      · simp only [System.pending, System.produce, pushStep_slots _ ht, produce_owner _ _ ht]
      · rw [hstep]
        constructor
        · rintro ⟨pc', h1, h2⟩
          obtain rfl := Option.some.inj h1
          cases h2
        · exact fun h2 => absurd (PushPc.touches_of_owns h2) ht
  refine h.frame (by simp only [System.produce, hstep, setSlot_writeIndex]) ?_
    (produce_observed _ _ _).2 (by rw [hhist]) (by rw [hhist]) (fun p' index => ?_) hO
  · show ((pushStep s.queue _).1.readIndex.toNat + s.storing) % 16 = _
    rw [pushStep_readIndex]
  · refine at_produce hpc ?_
    rw [hstep]
    constructor
    · rintro ⟨pc', h1, h2⟩
      obtain rfl := Option.some.inj h1
      cases h2
    · intro h2
      cases h2

section Release

variable {job : PopJob} {index : UInt64} {hd : FitHeader} {k : ℕ}

/-- The EMPTY store frees the slot of the pop and leaves the others taken. -/
theorem occupies_release (hI : Inv s) (hpc : s.consumer = some (.clearByte job index hd k))
    (hk : ¬ k < maxPayloadSize) (i : Fin queueCapacity) (t : ℕ) :
    (s.consume (.clearByte job index hd k)).Occupies i t ↔
      i ≠ getSlot index ∧ s.Occupies i t := by
  obtain ⟨_, _, hticket⟩ := consume_calls s.history s.queue (.clearByte job index hd k)
  by_cases e : i = getSlot index
  · subst e
    obtain ⟨sent, _, _, _, hnot⟩ := (hI.phase (getSlot index)).held hpc rfl
    have hnone : (s.consume (.clearByte job index hd k)).pending (getSlot index) = none := by
      simp [System.pending, System.consume, popStep_release hk]
    refine ⟨fun ho => ?_, fun ho => absurd rfl ho.1⟩
    rcases ho with ⟨e, he, _⟩ | ⟨p, ho, _⟩
    · rw [hnone] at he
      cases he
    · exact absurd ho (hnot p)
  · have ht : (PopPc.clearByte job index hd k).cursor.map getSlot ≠ some i :=
      fun e' => e (Option.some.inj e').symm
    unfold System.Occupies
    simp only [System.pending, System.consume, popStep_slots _ ht, consume_owner, hticket, e,
      ne_eq, not_false_eq_true, true_and]
    exact Iff.rfl

/-- The window and the position of the reader leave one ticket for the slot it is about to free:
    the first. -/
theorem Turns.first (h : Turns s) (hI : Inv s)
    (hpc : s.consumer = some (.clearByte job index hd k)) {t : ℕ}
    (ht : s.Occupies (getSlot index) t) : t = s.history.consumed.length := by
  have hr := h.read
  have hstoring : s.storing = 0 := by
    unfold System.storing
    rw [hpc]
    rfl
  have hread : s.queue.readIndex = index := hI.cursor _ _ hpc rfl
  have hw := h.window _ t ht
  rw [hread, hstoring] at hr
  rw [getSlot_val] at hw
  omega

/-- The EMPTY store: the message with the first ticket of the window is consumed, and the window
    moves on by one. -/
theorem turns_release (hI : Inv s) (hA : CallOrder s) (h : Turns s)
    (hpc : s.consumer = some (.clearByte job index hd k)) (hk : ¬ k < maxPayloadSize) :
    Turns (s.consume (.clearByte job index hd k)) := by
  have hstep : popStep s.queue (.clearByte job index hd k) = _ := popStep_release hk
  obtain ⟨hcon, _⟩ := consumed_release hI hpc hk
  have hcon' : (s.consume (.clearByte job index hd k)).history.consumed = _ := hcon
  obtain ⟨_, htickets, hticket⟩ := consume_calls s.history s.queue (.clearByte job index hd k)
  obtain ⟨sent, hdr, _⟩ := (hI.phase (getSlot index)).held hpc rfl
  have hpend : s.pending (getSlot index) = some (s.history.owner (getSlot index)) := by
    unfold System.pending
    rw [hdr.state]
    rfl
  have hfirst : (s.history.owner (getSlot index)).ticket = s.history.consumed.length :=
    h.first hI hpc (.inl ⟨_, hpend, rfl⟩)
  have hO := occupies_release hI hpc hk
  have hlen : (s.consume (.clearByte job index hd k)).history.consumed.length =
      s.history.consumed.length + 1 := by
    rw [hcon', List.length_append, List.length_singleton]
  refine ⟨?_, ?_, ?_, fun p index' hp => ?_, fun p index' hp => ?_, fun i t ht => ?_,
    fun t h1 h2 => ?_⟩
  · simp only [System.consume, hstep, setSlot_writeIndex, htickets]
    exact h.write
  · have hr := h.read
    rw [System.storing, hpc] at hr
    rw [hlen]
    simp only [System.consume, hstep, setSlot_readIndex, System.storing, Option.map_some,
      Option.getD_some, PopPc.storing] at hr ⊢
    omega
  · rw [hlen, hcon', List.map_append, List.map_singleton, h.order, hfirst, List.range_succ]
  · simp only [System.consume, hticket]
    exact h.slot p index' hp
  · have hge := h.waiting p index' hp
    have hne := hA.apart _ (hI.pending_published hpend) p (Waits.ticketed hp)
    rw [hfirst] at hne
    rw [hlen]
    simp only [System.consume, hticket]
    omega
  · obtain ⟨e, ho⟩ := (hO i t).mp ht
    have hw := h.window i t ho
    have hown := h.window _ _ (.inl ⟨_, hpend, rfl⟩)
    have hne : t ≠ s.history.consumed.length := by
      intro et
      apply e
      apply Fin.ext
      omega
    rw [hlen]
    omega
  · rw [hlen] at h1
    simp only [System.consume, htickets] at h2
    rcases h.queued t (by omega) h2 with ⟨p, index', hp, e⟩ | ⟨i, hi⟩
    · exact .inl ⟨p, index', hp, by simp only [System.consume, hticket]; exact e⟩
    · refine .inr ⟨i, (hO i t).mpr ⟨?_, hi⟩⟩
      rintro rfl
      have := h.first hI hpc hi
      omega

end Release

/-- The index store moves `read_index` by the one that `storing` stands for; every other step that
    releases nothing leaves both alone. -/
theorem popStep_read {q : SharedQueueLayout} {pc : PopPc}
    (hr : ∀ index, pc.cursor = some index → q.readIndex = index)
    (hnr : ∀ job index hd k, pc = .clearByte job index hd k → k < maxPayloadSize) :
    ((popStep q pc).1.readIndex.toNat + ((popStep q pc).2.map PopPc.storing).getD 0) % 16 =
      (q.readIndex.toNat + pc.storing) % 16 := by
  cases pc with
  | loadState job index => simp only [popStep]; split <;> rfl
  | loadLength job index type =>
      exact PopPc.onHeader_cases (motive := fun pc => (_ + pc.storing) % 16 = _) rfl
        (fun _ _ _ => rfl) fun _ _ _ => rfl
  | copyByte job index hd k => simp only [popStep]; split <;> rfl
  | clearByte job index hd k => rw [popStep_clear (hnr job index hd k rfl)]; rfl
  | storeIndex job index hd =>
      have hlt := index.toNat_lt
      rw [hr index rfl]
      simp only [popStep, Option.map_some, Option.getD_some, PopPc.storing, UInt64.toNat_add,
        UInt64.toNat_one]
      omega
  | _ => rfl

theorem turns_consume (hI : Inv s) (hA : CallOrder s) (h : Turns s) {pc : PopPc}
    (hpc : s.consumer = some pc) : Turns (s.consume pc) := by
  by_cases hrel : ∃ job index hd k, pc = .clearByte job index hd k ∧ ¬ k < maxPayloadSize
  · obtain ⟨job, index, hd, k, rfl, hk⟩ := hrel
    exact turns_release hI hA h hpc hk
  · have hnr : ∀ job index hd k, pc = .clearByte job index hd k → k < maxPayloadSize :=
      fun job index hd k e => Classical.not_not.mp fun hk => hrel ⟨job, index, hd, k, e, hk⟩
    obtain ⟨hpend, hcon⟩ := pending_consume s hnr
    obtain ⟨_, htickets, hticket⟩ := consume_calls s.history s.queue pc
    refine h.frame (popStep_effect _ _).writeIndex ?_ hcon htickets hticket (fun _ _ => Iff.rfl)
      (fun i t => ?_)
    · have hr := popStep_read (fun index => hI.cursor pc index hpc) hnr
      unfold System.storing
      rw [hpc]
      exact hr
    · unfold System.Occupies
      rw [hpend]
      simp only [System.consume, hticket]
      exact Iff.rfl

/-- **No push returns `false`**: the guards let every call pass, and every `compare_exchange`
    finds its slot EMPTY. -/
def System.accepts (s : System) : Action → Bool
  | .push _ a => a.guard.isSome
  | .produce p =>
    match s.producers p with
    | some (.compareExchange _ index) =>
      decide ((s.queue.slots (getSlot index)).state = SlotState.empty.code)
    | _ => true
  | _ => true

theorem turns_step {a : Action} (hI : Inv s) (hA : CallOrder s) (h : Turns s)
    (hacc : s.accepts a = true) (hu : s.Unovertaken a) (hs : s.step a = some s') : Turns s' := by
  rcases step_cases hs with ⟨p, args, _, _, hp, rfl⟩ | ⟨p, pc, rfl, _, hp, rfl⟩ |
    ⟨args, _, hc, rfl⟩ | ⟨pc, _, hc, rfl⟩ | ⟨p, _, rfl⟩
  · exact turns_callPush h hp args
  · cases pc with
    | fetchAdd job => exact turns_fetchAdd hI hA h hp
    | compareExchange job index =>
        have he : (s.queue.slots (getSlot index)).state = SlotState.empty.code := by
          simpa [System.accepts, hp] using hacc
        exact turns_claim hI hA h hp he hu
    | putType job i => exact turns_quiet hI h hp trivial
    | putLength job i => exact turns_quiet hI h hp trivial
    | copyByte job i k =>
        by_cases hk : k < job.length
        · exact turns_quiet hI h hp hk
        · exact turns_publish hI h hp hk
    | done pushed => exact turns_quiet hI h hp trivial
  · refine h.frame rfl ?_ rfl rfl rfl (fun _ _ => Iff.rfl) (fun _ _ => Iff.rfl)
    have h0 : args.enter.storing = 0 := by
      unfold PopArgs.enter
      split <;> rfl
    simp only [System.callPop, System.storing, hc, Option.map_some, Option.getD_some, h0,
      Option.map_none, Option.getD_none]
  · exact turns_consume hI hA h hc
  · exact h.frame rfl rfl rfl rfl rfl (fun _ _ => Iff.rfl) (fun _ _ => Iff.rfl)

end Turns

/-! ## 4. The order of delivery -/

theorem turns_reach {memory : SharedQueueLayout} {s : System}
    (h : ReachWhere System.step (fun s a => s.accepts a = true ∧ s.Unovertaken a)
      (.start memory) s) : Inv s ∧ CallOrder s ∧ Turns s := by
  refine h.invariant (I := fun s => Inv s ∧ CallOrder s ∧ Turns s)
    ⟨inv_start memory, callOrder_start memory, turns_start memory⟩ ?_
  intro s a s' ⟨hI, hA, hT⟩ ⟨hacc, hu⟩ hs
  exact ⟨inv_step hI hs, callOrder_step hA hs, turns_step hI hA hT hacc hu hs⟩

/-- The calls of producer `p` whose messages were consumed, in the order of consumption. -/
def History.consumedCalls (h : History) (p : ℕ) : List ℕ :=
  (h.consumed.filter (·.entry.tag.producer = p)).map (·.entry.tag.call)

/-- **The messages of each producer are consumed in the order of its calls**, in every run in
    which no push is refused and no ticket overtakes an earlier one of its slot. -/
theorem consumed_in_call_order (memory : SharedQueueLayout) {s : System}
    (h : ReachWhere System.step (fun s a => s.accepts a = true ∧ s.Unovertaken a)
      (.start memory) s) (p : ℕ) : (s.history.consumedCalls p).Pairwise (· < ·) := by
  obtain ⟨hI, hA, hT⟩ := turns_reach h
  have hsorted : s.history.consumed.Pairwise fun c c' => c.entry.ticket < c'.entry.ticket := by
    rw [← List.pairwise_map (f := fun c : Consumed => c.entry.ticket), hT.order]
    exact List.pairwise_lt_range
  unfold History.consumedCalls
  rw [List.pairwise_map, List.pairwise_filter]
  refine hsorted.imp_of_mem fun {c c'} hc hc' hlt hp hp' => ?_
  refine hA.call_lt (hI.consumed_published hc) (hI.consumed_published hc') ?_ hlt
  rw [of_decide_eq_true hp, of_decide_eq_true hp']

/-- No producer below `k` with an earlier ticket for the same slot is overtaken, and nobody else is
    there. -/
def System.unovertaken (k : ℕ) (s : System) : Action → Bool
  | .push p _ => decide (p < k)
  | .produce p => (List.range k).all fun p' =>
      match (s.producers p).bind PushPc.awaits, (s.producers p').bind PushPc.awaits with
      | some index, some index' =>
        decide (getSlot index' = getSlot index → s.history.ticket p ≤ s.history.ticket p')
      | _, _ => true
  | _ => true

/-- With finitely many producers the condition can be tested. -/
theorem unovertaken_reach {k : ℕ} {memory : SharedQueueLayout} {s : System}
    (h : ReachWhere System.step (fun s a => (s.accepts a && s.unovertaken k a) = true)
      (.start memory) s) :
    ReachWhere System.step (fun s a => s.accepts a = true ∧ s.Unovertaken a) (.start memory) s ∧
      ∀ p ≥ k, s.producers p = none := by
  induction h with
  | start => exact ⟨.start, fun _ _ => rfl⟩
  | next s s' a _ hc hs ih =>
      obtain ⟨hr, hidle⟩ := ih
      obtain ⟨hacc, hfree⟩ := Bool.and_eq_true_iff.mp hc
      have hbelow : ∀ {p pc}, s.producers p = some pc → p < k := fun {p pc} hp => by
        refine Nat.lt_of_not_le fun hle => ?_
        rw [hidle p hle] at hp
        cases hp
      have hu : s.Unovertaken a := by
        cases a with
        | produce p =>
            rintro index ⟨pc, hpc, hindex⟩ p' index' ⟨pc', hpc', hindex'⟩ hslot
            have htest := List.all_eq_true.mp hfree p' (List.mem_range.mpr (hbelow hpc'))
            simp only [hpc, hpc', Option.bind_some, hindex, hindex'] at htest
            exact of_decide_eq_true htest hslot
        | _ => trivial
      refine ⟨.next s s' a hr ⟨hacc, hu⟩ hs, fun q hq => ?_⟩
      rcases step_cases hs with ⟨p, args, rfl, _, _, rfl⟩ | ⟨p, pc, rfl, _, hp, rfl⟩ |
        ⟨args, _, _, rfl⟩ | ⟨pc, _, _, rfl⟩ | ⟨p, _, rfl⟩
      · have hne : q ≠ p := fun e => Nat.not_lt_of_le hq (e ▸ of_decide_eq_true hfree)
        simpa only [System.callPush, Function.update_of_ne hne] using hidle q hq
      · have hne : q ≠ p := fun e => Nat.not_lt_of_le hq (e ▸ hbelow hp)
        simpa only [System.produce, Function.update_of_ne hne] using hidle q hq
      · exact hidle q hq
      · exact hidle q hq
      · exact hidle q hq

/-- A push of an empty message. -/
def emptyPush : PushArgs := ⟨false, .text, some fun _ => 0, 0⟩

/-- Two producers side by side, producer 1 with the later ticket in front; producer 0 pushes once
    more while the consumer is inside its first pop. Three messages are consumed. -/
def twoSideBySide : List Action :=
  [Action.push 0 emptyPush, .produce 0, .push 1 emptyPush] ++
    List.replicate 4 (Action.produce 1) ++ List.replicate 5 (Action.produce 0) ++
    List.replicate 2 (Action.produce 1) ++ [Action.push 0 emptyPush, .pop popText] ++
    List.replicate 100 Action.consume ++ List.replicate 6 (Action.produce 0) ++
    List.replicate 166 Action.consume ++ [Action.pop popText] ++
    List.replicate 266 Action.consume ++ [Action.pop popText] ++ List.replicate 266 Action.consume

theorem consumed_in_call_order_two_producers :
    ∃ s, ReachWhere System.step (fun s a => s.accepts a = true ∧ s.Unovertaken a)
        (.start .fresh) s ∧
      s.history.consumed.map (fun c => (c.entry.tag.producer, c.entry.tag.call)) =
        [(0, 1), (1, 1), (0, 2)] ∧
      s.history.consumedCalls 0 = [1, 2] ∧ s.history.consumedCalls 1 = [1] ∧
      ∀ p, (s.history.consumedCalls p).Pairwise (· < ·) := by
  have hrun : (run (guarded System.step fun s a => s.accepts a && s.unovertaken 2 a)
      (.start .fresh) twoSideBySide).map (fun s => decide (
        s.history.consumed.map (fun c => (c.entry.tag.producer, c.entry.tag.call)) =
          [(0, 1), (1, 1), (0, 2)] ∧
        s.history.consumedCalls 0 = [1, 2] ∧ s.history.consumedCalls 1 = [1])) = some true := by
    decide +kernel
  obtain ⟨s, hs, hp⟩ := reach_of_run System.step (fun s a => s.accepts a && s.unovertaken 2 a)
    (.start .fresh) twoSideBySide _ hrun
  obtain ⟨horder, hzero, hone⟩ := of_decide_eq_true hp
  have hs' := (unovertaken_reach hs).1
  exact ⟨s, hs', horder, hzero, hone, consumed_in_call_order .fresh hs'⟩

/-- Producer 0 draws ticket 0 and is suspended. Producer 1 publishes its first message under
    ticket 1, fourteen producers draw tickets 2 to 15, and producer 1 publishes its second message
    under ticket 16: in slot 0, where ticket 0 should be. The consumer takes two messages, and
    then everybody finishes. -/
def overtaken : List Action :=
  [Action.push 0 emptyPush, .produce 0, .push 1 emptyPush] ++
    List.replicate 6 (Action.produce 1) ++
    ((List.range 14).flatMap fun q => [Action.push (q + 2) emptyPush, .produce (q + 2)]) ++
    [Action.push 1 emptyPush] ++ List.replicate 6 (Action.produce 1) ++
    [Action.pop popText] ++ List.replicate 266 Action.consume ++
    [Action.pop popText] ++ List.replicate 266 Action.consume ++
    ((List.range 16).flatMap fun q => if q = 1 then [] else List.replicate 5 (Action.produce q))

/-- **A lap overtaken**: all seventeen pushes return `true`, and the consumer takes the second
    message of producer 1 before its first. -/
theorem overtaken_out_of_order :
    ∃ s, ReachWhere System.step (fun s a => s.accepts a = true) (.start .fresh) s ∧
      s.history.returned.length = 17 ∧ s.history.consumedCalls 1 = [2, 1] ∧
      ¬ (s.history.consumedCalls 1).Pairwise (· < ·) := by
  have hrun : (run (guarded System.step System.accepts) (.start .fresh) overtaken).map
      (fun s => decide (s.history.returned.length = 17 ∧ s.history.consumedCalls 1 = [2, 1])) =
      some true := by decide +kernel
  obtain ⟨s, hs, hp⟩ := reach_of_run System.step System.accepts (.start .fresh) overtaken _ hrun
  obtain ⟨hr, hc⟩ := of_decide_eq_true hp
  exact ⟨s, hs, hr, hc, by rw [hc]; decide⟩

end HseMultithreading.Hw4
