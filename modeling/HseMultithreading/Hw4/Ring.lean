/-
  File:      HseMultithreading/Hw4/Ring.lean
  Subject:   The ring as a FIFO of messages: what the sixteen slots and the two 64-bit indices
             say about a list of messages, call by call.

  * `Occupied q msgs` -- counted from `read_index`, the first `msgs.length` slots are READY and
    hold `msgs` in order, and every other slot is EMPTY. Nothing is said about `write_index`.
  * `Holds q msgs` -- in addition `write_index - read_index` (modulo `2 ^ 64`) is the number of
    messages, so the next ticket is the first free slot.

  A push that is accepted at the first free slot appends (`Occupied.accept`), a pop that takes
  its slot removes the head (`Occupied.release`). The wrap of the indices never shows: slots are
  counted modulo 16, and 16 divides `2 ^ 64`.
-/
import HseMultithreading.Hw4.Calls

namespace HseMultithreading.Hw4

/-! ## 1. Positions counted from an index -/

/-- The slot `k` places behind an index. -/
def slotAt (index : UInt64) (k : ℕ) : Fin queueCapacity :=
  ⟨(index.toNat + k) % queueCapacity, Nat.mod_lt _ (by decide)⟩

theorem slotAt_val (index : UInt64) (k : ℕ) : (slotAt index k).val = (index.toNat + k) % 16 := rfl

theorem slotAt_zero (index : UInt64) : slotAt index 0 = getSlot index := rfl

theorem slotAt_inj {index : UInt64} {k k' : ℕ} (hk : k < 16) (hk' : k' < 16)
    (h : slotAt index k = slotAt index k') : k = k' := by
  have h' := congrArg Fin.val h
  rw [slotAt_val, slotAt_val] at h'
  omega

theorem slotAt_succ (index : UInt64) (k : ℕ) : slotAt (index + 1) k = slotAt index (k + 1) := by
  apply Fin.ext
  rw [slotAt_val, slotAt_val, UInt64.toNat_add]
  have h := index.toNat_lt
  simp only [UInt64.toNat_one]
  omega

/-- How far behind an index a slot lies. -/
def distance (index : UInt64) (i : Fin queueCapacity) : ℕ := (i.val + 16 - index.toNat % 16) % 16

theorem distance_lt (index : UInt64) (i : Fin queueCapacity) : distance index i < 16 :=
  Nat.mod_lt _ (by decide)

theorem slotAt_distance (index : UInt64) (i : Fin queueCapacity) :
    slotAt index (distance index i) = i := by
  apply Fin.ext
  have hi := slot_lt i
  rw [slotAt_val, distance]
  omega

theorem distance_slotAt (index : UInt64) {k : ℕ} (hk : k < 16) :
    distance index (slotAt index k) = k :=
  slotAt_inj (distance_lt _ _) hk (slotAt_distance _ _)

/-- A release moves every slot one place forward, except the one it clears. -/
theorem release_slotAt (q : SharedQueueLayout) {k : ℕ} (hk : k + 1 < 16) :
    q.release.slots (slotAt q.release.readIndex k) = q.slots (slotAt q.readIndex (k + 1)) := by
  show (q.setSlot (getSlot q.readIndex) .cleared).slots (slotAt (q.readIndex + 1) k) = _
  rw [slotAt_succ, setSlot_slots_of_ne]
  intro e
  have := slotAt_inj hk (by decide) (e.trans (slotAt_zero _).symm)
  omega

/-! ## 2. The messages a ring holds -/

/-- **The READY slots are a run behind `read_index` and hold `msgs` in order.** -/
structure Occupied (q : SharedQueueLayout) (msgs : List Message) : Prop where
  bounded : msgs.length ≤ 16
  ready : ∀ k < msgs.length, (q.slots (slotAt q.readIndex k)).state = SlotState.ready.code
  message : ∀ k (h : k < msgs.length), (q.slots (slotAt q.readIndex k)).message = msgs[k]
  empty : ∀ k, msgs.length ≤ k → k < 16 →
    (q.slots (slotAt q.readIndex k)).state = SlotState.empty.code
  fits : ∀ m ∈ msgs, m.length.toNat ≤ maxPayloadSize

theorem occupied_fresh : Occupied .fresh [] where
  bounded := Nat.zero_le _
  ready _ h := absurd h (Nat.not_lt_zero _)
  message _ h := absurd h (Nat.not_lt_zero _)
  empty _ _ _ := rfl
  fits _ h := absurd h List.not_mem_nil

section Occupied

variable {q : SharedQueueLayout} {msgs : List Message}

/-- The slots do not depend on `write_index`. -/
theorem Occupied.ticket (h : Occupied q msgs) (w : UInt64) :
    Occupied { q with writeIndex := w } msgs :=
  ⟨h.bounded, h.ready, h.message, h.empty, h.fits⟩

theorem Occupied.ready_iff (h : Occupied q msgs) (i : Fin queueCapacity) :
    (q.slots i).state = SlotState.ready.code ↔ distance q.readIndex i < msgs.length := by
  have hd := distance_lt q.readIndex i
  have hi := slotAt_distance q.readIndex i
  constructor
  · intro hr
    refine Nat.lt_of_not_le fun hle => ?_
    have he := h.empty _ hle hd
    rw [hi, hr] at he
    simp at he
  · intro hlt
    have hr := h.ready _ hlt
    rwa [hi] at hr

theorem Occupied.empty_iff (h : Occupied q msgs) (i : Fin queueCapacity) :
    (q.slots i).state = SlotState.empty.code ↔ msgs.length ≤ distance q.readIndex i := by
  have hd := distance_lt q.readIndex i
  have hi := slotAt_distance q.readIndex i
  constructor
  · intro he
    refine Nat.le_of_not_lt fun hlt => ?_
    have hr := h.ready _ hlt
    rw [hi, he] at hr
    simp at hr
  · intro hle
    have he := h.empty _ hle hd
    rwa [hi] at he

/-- **Filling the first free slot appends.** -/
theorem Occupied.accept (h : Occupied q msgs) (job : PushJob) (hlt : msgs.length < 16)
    {i : Fin queueCapacity} (hi : i = slotAt q.readIndex msgs.length) :
    Occupied (q.setSlot i (job.fill (q.slots i))) (msgs ++ [job.message]) := by
  have hne : ∀ k, k < 16 → k ≠ msgs.length → slotAt q.readIndex k ≠ i := by
    intro k hk hkn e
    exact hkn (slotAt_inj hk hlt (e.trans hi))
  refine ⟨by simp; omega, fun k hk => ?_, fun k hk => ?_, fun k hk hk16 => ?_, fun m hm => ?_⟩
  · rw [setSlot_readIndex]
    by_cases e : k = msgs.length
    · rw [e, ← hi, setSlot_slots_self]
      rfl
    · have hk' : k < msgs.length := by simp at hk; omega
      rw [setSlot_slots_of_ne _ _ _ (hne k (by omega) e)]
      exact h.ready k hk'
  · simp only [setSlot_readIndex]
    by_cases e : k = msgs.length
    · subst e
      rw [← hi, setSlot_slots_self, job.message_fill]
      simp
    · have hk' : k < msgs.length := by simp at hk; omega
      rw [setSlot_slots_of_ne _ _ _ (hne k (by omega) e), h.message k hk',
        List.getElem_append_left hk']
  · simp only [List.length_append, List.length_singleton] at hk
    rw [setSlot_readIndex, setSlot_slots_of_ne _ _ _ (hne k hk16 (by omega))]
    exact h.empty k (by omega) hk16
  · rcases List.mem_append.mp hm with hm | hm
    · exact h.fits m hm
    · rw [List.mem_singleton.mp hm]
      show (UInt32.ofNat job.length).toNat ≤ _
      rw [job.length_toNat]
      exact job.fits

/-- **Releasing the slot at `read_index` removes the head.** -/
theorem Occupied.release {m : Message} (h : Occupied q (m :: msgs)) : Occupied q.release msgs := by
  have hb : msgs.length + 1 ≤ 16 := h.bounded
  refine ⟨by omega, fun k hk => ?_, fun k hk => ?_, fun k hk hk16 => ?_,
    fun m' hm' => h.fits m' (List.mem_cons_of_mem _ hm')⟩
  · rw [release_slotAt q (by omega)]
    exact h.ready (k + 1) (Nat.succ_lt_succ hk)
  · rw [release_slotAt q (by omega)]
    exact h.message (k + 1) (Nat.succ_lt_succ hk)
  · by_cases e : k = 15
    · -- the slot just released is now the last one behind `read_index`
      have hl : slotAt q.release.readIndex k = getSlot q.readIndex := by
        show slotAt (q.readIndex + 1) k = _
        apply Fin.ext
        rw [slotAt_succ, slotAt_val, getSlot_val, e]
        omega
      rw [hl]
      show ((q.setSlot (getSlot q.readIndex) .cleared).slots (getSlot q.readIndex)).state = _
      rw [setSlot_slots_self]
      rfl
    · rw [release_slotAt q (by omega)]
      exact h.empty (k + 1) (Nat.succ_le_succ hk) (by omega)

/-- On an occupied ring a pop takes its slot exactly when there is a head and it fits. -/
theorem Occupied.takes_iff (h : Occupied q msgs) (job : PopJob) :
    Takes q job ↔ ∃ m rest, msgs = m :: rest ∧ m.length.toNat ≤ job.size := by
  have hz := slotAt_zero q.readIndex
  cases msgs with
  | nil =>
      constructor
      · rintro ⟨hr, _⟩
        have he := h.empty 0 (Nat.le_refl 0) (by decide)
        rw [hz, hr] at he
        simp at he
      · rintro ⟨m, rest, e, _⟩
        cases e
  | cons m rest =>
      have hr := h.ready 0 (Nat.succ_pos _)
      have hm : (q.slots (getSlot q.readIndex)).message = m := h.message 0 (Nat.succ_pos _)
      have hl : (q.slots (getSlot q.readIndex)).header.length = m.length :=
        congrArg Message.length hm
      constructor
      · rintro ⟨_, _, hs⟩
        exact ⟨m, rest, rfl, hl ▸ hs⟩
      · rintro ⟨m', rest', e, hs⟩
        cases e
        exact ⟨hr, hl ▸ h.fits m List.mem_cons_self, hl ▸ hs⟩

end Occupied

end HseMultithreading.Hw4
