/-
  File:      HseMultithreading/Hw4/Refusal.lean
  Subject:   What a refused `try_push_message` leaves behind (`hw4/ipc_queue.cpp`): two runs of the
             same calls, with the refused push before them and without it.

  A push that a guard refuses changes nothing. A push that finds its slot occupied has moved
  `write_index`, and that always shows: the pushes that follow look at other slots.

  * `NoTrace q a` -- no sequence of calls gives anything else after the push `a` than without it.
  * `SharedQueueLayout.Indifferent` -- it does not matter whether the next ticket is drawn. A queue
    of a session is not indifferent where that ticket is one of an occupied slot
    (`not_indifferent`).
  * **`refused_push_noTrace_iff`** -- a refused push leaves no trace exactly when a guard refused
    it; and as long as no push was refused for an occupied slot, a push that passes the guards
    succeeds whenever a slot is EMPTY.
  * `refused_push_leaves_trace` -- the seventeenth push.
-/
import HseMultithreading.Lib.Calls
import HseMultithreading.Hw4.Session

namespace HseMultithreading.Hw4

open StepSystem CallRule

/-! ## 1. What the caller sees -/

/-- **The push leaves no trace**: every sequence of calls gives the same after it as without it. -/
def NoTrace (q : SharedQueueLayout) (a : PushArgs) : Prop :=
  ∀ calls, totalAnswers SharedQueueLayout.reply (tryPushMessage q a).1 calls =
    totalAnswers SharedQueueLayout.reply q calls

/-- The queue with the next ticket drawn. -/
def SharedQueueLayout.skip (q : SharedQueueLayout) : SharedQueueLayout :=
  { q with writeIndex := q.writeIndex + 1 }

/-- **The next ticket does not matter**: every sequence of calls gives the same once it is drawn. -/
def SharedQueueLayout.Indifferent (q : SharedQueueLayout) : Prop :=
  ∀ calls, totalAnswers SharedQueueLayout.reply q.skip calls =
    totalAnswers SharedQueueLayout.reply q calls

/-- The state word of the slot `k` places behind `write_index` is EMPTY. -/
def SharedQueueLayout.Free (q : SharedQueueLayout) (k : ℕ) : Prop :=
  (q.slots (slotAt q.writeIndex k)).state = SlotState.empty.code

instance (q : SharedQueueLayout) (k : ℕ) : Decidable (q.Free k) :=
  inferInstanceAs (Decidable (_ = _))

section Replies

variable {q : SharedQueueLayout} {a : PushArgs} {job : PushJob}

theorem free_skip (q : SharedQueueLayout) (k : ℕ) : q.skip.Free k ↔ q.Free (k + 1) := by
  unfold SharedQueueLayout.Free SharedQueueLayout.skip
  rw [slotAt_succ]

/-- A push behind the guards answers whether the slot of its ticket is EMPTY. -/
theorem reply_push (hg : a.guard = some job) (q : SharedQueueLayout) :
    (q.reply (.push a)).2 = .pushed (decide (q.Free 0)) := by
  show Reply.pushed _ = _
  by_cases he : q.Free 0
  · rw [tryPushMessage_accepted hg he, decide_eq_true he]
  · rw [tryPushMessage_occupied hg he, decide_eq_false he]

theorem reply_push_refused (hg : a.guard = some job) (hq : ¬ q.Free 0) :
    q.reply (.push a) = (q.skip, .pushed false) := by
  show ((tryPushMessage q a).1, Reply.pushed (tryPushMessage q a).2) = _
  rw [tryPushMessage_occupied hg hq]
  rfl

/-- Pushes into occupied slots, and one more. -/
theorem replies_pushes (hg : a.guard = some job) {n : ℕ} : ∀ {q : SharedQueueLayout},
    (∀ k < n, ¬ q.Free k) →
    totalAnswers SharedQueueLayout.reply q (List.replicate (n + 1) (.push a)) =
      List.replicate n (.pushed false) ++ [.pushed (decide (q.Free n))] := by
  induction n with
  | zero =>
      intro q _
      show [(q.reply (.push a)).2] = _
      rw [reply_push hg]
      rfl
  | succ n ih =>
      intro q hq
      rw [List.replicate_succ, totalAnswers, reply_push_refused hg (hq 0 (Nat.succ_pos n)),
        ih fun k hk => (free_skip q k).not.mpr (hq (k + 1) (Nat.succ_lt_succ hk)),
        List.replicate_succ, List.cons_append, decide_eq_decide.mpr (free_skip q n)]

/-- **A full ring**: if pushes are answered alike from `write_index` and from the place behind it,
    and the first of them is refused, no slot is EMPTY. -/
theorem SharedQueueLayout.Indifferent.full (hsame : q.Indifferent) (hg : a.guard = some job)
    (hq : ¬ q.Free 0) (k : ℕ) : ¬ q.Free k := by
  have hall : ∀ n, ∀ k ≤ n, ¬ q.Free k := by
    intro n
    induction n with
    | zero => exact fun k hk => Nat.le_zero.mp hk ▸ hq
    | succ n ih =>
        -- The push number `n + 1` of the first run looks at the place `n + 1`, that of the second
        -- run at the place `n`, which is occupied.
        have hfirst := replies_pushes hg (q := q.skip) (n := n) fun k hk =>
          (free_skip q k).not.mpr (ih (k + 1) hk)
        have hsecond := replies_pushes hg (q := q) (n := n) fun k hk => ih k (Nat.le_of_lt hk)
        rw [hsame _, hsecond] at hfirst
        have hlast := Reply.pushed.inj (List.singleton_inj.mp (List.append_cancel_left hfirst))
        rw [decide_eq_false (ih n (Nat.le_refl n))] at hlast
        intro k hk
        rcases Nat.lt_or_eq_of_le hk with hlt | rfl
        · exact ih k (Nat.le_of_lt_succ hlt)
        · exact fun hfree => of_decide_eq_false hlast.symm ((free_skip q n).mpr hfree)
  exact hall k k (Nat.le_refl k)

end Replies

/-! ## 2. The slots of a session -/

/-- Every slot is EMPTY, or READY with a length that fits. -/
def SharedQueueLayout.Tidy (q : SharedQueueLayout) : Prop :=
  ∀ i, (q.slots i).state = SlotState.empty.code ∨
    (q.slots i).state = SlotState.ready.code ∧ (q.slots i).header.length.toNat ≤ maxPayloadSize

section Sessions

variable {q : SharedQueueLayout}

theorem SharedQueueLayout.Tidy.setSlot (h : q.Tidy) (i : Fin queueCapacity) {slot : MessageSlot}
    (hslot : slot.state = SlotState.empty.code ∨
      slot.state = SlotState.ready.code ∧ slot.header.length.toNat ≤ maxPayloadSize) :
    (q.setSlot i slot).Tidy := by
  intro j
  by_cases e : j = i
  · rw [e, setSlot_slots_self]
    exact hslot
  · rw [setSlot_slots_of_ne _ _ _ e]
    exact h j

theorem tidy_call {s : Session} (h : s.queue.Tidy) (c : Call) : (s.call c).queue.Tidy := by
  cases c with
  | push a =>
      cases hg : a.guard with
      | none => rw [call_push_none hg]; exact h
      | some job =>
          by_cases he : (s.queue.slots (getSlot s.queue.writeIndex)).state = SlotState.empty.code
          · rw [call_push_accepted hg he]
            refine SharedQueueLayout.Tidy.setSlot (q := s.queue.skip) h _ (.inr ⟨rfl, ?_⟩)
            show (UInt32.ofNat job.length).toNat ≤ _
            rw [job.length_toNat]
            exact job.fits
          · rw [call_push_occupied hg he]
            exact h
  | pop a =>
      by_cases ht : ∃ job, a.guard = some job ∧ Takes s.queue job
      · obtain ⟨job, hg, ht⟩ := ht
        rw [call_pop_takes hg ht]
        exact h.setSlot (getSlot s.queue.readIndex) (.inl rfl)
      · rw [call_pop_keeps fun job hg ht' => ht ⟨job, hg, ht'⟩]
        exact h

theorem tidy_session {memory : SharedQueueLayout} {s : Session}
    (h : Reach Session.step (.start memory) s) : s.queue.Tidy := by
  refine h.invariant (I := fun s => s.queue.Tidy) (fun _ => .inl rfl) ?_
  intro s c s' hI _ hs
  have e : s.call c = s' := Option.some.inj hs
  exact e ▸ tidy_call hI c

/-! ## 3. The trace of a refused push -/

/-- On a full ring a pop opens the slot at `read_index`, and the next pushes tell the two runs
    apart. -/
theorem full_not_indifferent (hready : ∀ i, (q.slots i).state = SlotState.ready.code ∧
      (q.slots i).header.length.toNat ≤ maxPayloadSize) : ¬ q.Indifferent := by
  intro hsame
  have hg : popText.guard = some ⟨MessageType.text.code, 256, fun _ => 0, ⟨0, 0⟩⟩ := rfl
  have hg' : oneByte.guard = some ⟨MessageType.text.code, fun _ => 65, 1, by decide⟩ := rfl
  have hpop : ∀ r : SharedQueueLayout, r.slots = q.slots →
      (r.reply (.pop popText)).1 = r.release := by
    intro r hr
    have ht : Takes r ⟨MessageType.text.code, 256, fun _ => 0, ⟨0, 0⟩⟩ := by
      unfold Takes
      rw [hr]
      exact ⟨(hready _).1, (hready _).2, (hready _).2⟩
    show (tryPopMessage r popText).queue = _
    rw [tryPopMessage_takes hg ht]
    split <;> rfl
  -- After the pop the two runs still agree.
  have hafter : q.release.Indifferent := by
    intro calls
    have h := (List.cons.inj (hsame (.pop popText :: calls))).2
    rw [hpop q.skip rfl, hpop q rfl] at h
    exact h
  have hopen : (q.release.slots (getSlot q.readIndex)).state = SlotState.empty.code := by
    show ((q.setSlot (getSlot q.readIndex) .cleared).slots (getSlot q.readIndex)).state = _
    rw [setSlot_slots_self]
    rfl
  have hwhere : ∀ k, q.release.Free k → slotAt q.writeIndex k = getSlot q.readIndex := by
    intro k hk
    by_contra hne
    have hkept : (q.release.slots (slotAt q.writeIndex k)).state = SlotState.ready.code := by
      show ((q.setSlot (getSlot q.readIndex) .cleared).slots _).state = _
      rw [setSlot_slots_of_ne _ _ _ hne]
      exact (hready _).1
    have hboth : SlotState.empty.code = SlotState.ready.code := Eq.trans (Eq.symm hk) hkept
    cases SlotState.code_inj.mp hboth
  by_cases hfree : q.release.Free 0
  · -- The ticket is that of the slot just opened; the place behind it is occupied.
    have hfirst := List.cons.inj (hafter [.push oneByte])
    rw [reply_push hg', reply_push hg', decide_eq_true hfree] at hfirst
    have hnext := (free_skip _ _).mp (of_decide_eq_true (Reply.pushed.inj hfirst.1))
    have e := slotAt_inj (by decide) (by decide) ((hwhere 0 hfree).trans (hwhere 1 hnext).symm)
    cases e
  · refine hafter.full hg' hfree (distance q.writeIndex (getSlot q.readIndex)) ?_
    show (q.release.slots (slotAt q.writeIndex _)).state = _
    rw [slotAt_distance]
    exact hopen

/-- **A push that found its slot occupied leaves a trace.** -/
theorem not_indifferent (htidy : q.Tidy) (hq : ¬ q.Free 0) : ¬ q.Indifferent := by
  intro hsame
  have hg : oneByte.guard = some ⟨MessageType.text.code, fun _ => 65, 1, by decide⟩ := rfl
  refine full_not_indifferent (fun i => (htidy i).resolve_left fun hempty => ?_) hsame
  refine hsame.full hg hq (distance q.writeIndex i) ?_
  unfold SharedQueueLayout.Free
  rw [slotAt_distance]
  exact hempty

end Sessions

/-- **A refused push leaves no trace exactly when a guard refused it**, and until a push is refused
    for an occupied slot, a push behind the guards succeeds whenever a slot is EMPTY. -/
theorem refused_push_noTrace_iff (memory : SharedQueueLayout) :
    (∀ s, Reach Session.step (.start memory) s → ∀ a, (tryPushMessage s.queue a).2 = false →
      (NoTrace s.queue a ↔ a.guard = none)) ∧
    ∀ s, ReachWhere Session.step NotRefused (.start memory) s → ∀ a, a.guard ≠ none →
      (∃ i, (s.queue.slots i).state = SlotState.empty.code) →
      (tryPushMessage s.queue a).2 = true := by
  refine ⟨fun s hs a hfalse => ⟨fun htrace => ?_, fun hg calls => ?_⟩, fun s hs a hg hempty => ?_⟩
  · cases hg : a.guard with
    | none => rfl
    | some job =>
        -- The push was refused behind the guards, so its slot is occupied.
        have hq : ¬ s.queue.Free 0 := by
          intro hfree
          rw [tryPushMessage_accepted hg hfree] at hfalse
          cases hfalse
        refine absurd (fun calls => ?_) (not_indifferent (tidy_session hs) hq)
        have hsame := htrace calls
        rw [tryPushMessage_occupied hg hq] at hsame
        exact hsame
  · rw [tryPushMessage_none hg]
  · obtain ⟨msgs, hm, -⟩ := session_refines_fifo memory hs
    obtain ⟨i, hi⟩ := hempty
    obtain ⟨job, hg⟩ := Option.ne_none_iff_exists'.mp hg
    have hroom : msgs.length < 16 :=
      Nat.lt_of_le_of_lt ((hm.occupied.empty_iff i).mp hi) (distance_lt _ _)
    rw [tryPushMessage_accepted hg (hm.empty_iff.mpr hroom)]

/-- **The seventeenth push** is refused, and the pop and the push that follow give something else
    than without it: the last push is refused although the pop has made a slot EMPTY. -/
theorem refused_push_leaves_trace :
    ∃ s, Reach Session.step (.start .fresh) s ∧ (tryPushMessage s.queue oneByte).2 = false ∧
      ¬ NoTrace s.queue oneByte ∧
      ∃ s', Reach Session.step (.start .fresh) s' ∧
        (∃ i, (s'.queue.slots i).state = SlotState.empty.code) ∧
        (tryPushMessage s'.queue oneByte).2 = false := by
  obtain ⟨s, hs, hp⟩ := reach_of_run Session.step (fun _ _ => true) (.start .fresh)
    (List.replicate 16 (.push oneByte))
    (fun s => decide ((tryPushMessage s.queue oneByte).2 = false ∧
      (tryPushMessage (tryPopMessage s.queue popText).queue oneByte).2 = true ∧
      (tryPushMessage (tryPopMessage (tryPushMessage s.queue oneByte).1 popText).queue
        oneByte).2 = false)) (by decide +kernel)
  obtain ⟨hrefused, hwithout, hwith⟩ := of_decide_eq_true hp
  obtain ⟨s', hs', hp'⟩ := reach_of_run Session.step (fun _ _ => true) (.start .fresh)
    (List.replicate 17 (.push oneByte) ++ [.pop popText])
    (fun s => decide ((∃ i, (s.queue.slots i).state = SlotState.empty.code) ∧
      (tryPushMessage s.queue oneByte).2 = false)) (by decide +kernel)
  refine ⟨s, hs.reach, hrefused, fun htrace => ?_, s', hs'.reach, of_decide_eq_true hp'⟩
  have hlast := (List.cons.inj (List.cons.inj (htrace [.pop popText, .push oneByte])).2).1
  have hsame : (tryPushMessage (tryPopMessage (tryPushMessage s.queue oneByte).1 popText).queue
      oneByte).2 = (tryPushMessage (tryPopMessage s.queue popText).queue oneByte).2 :=
    Reply.pushed.inj hlast
  rw [hwith, hwithout] at hsame
  cases hsame

end HseMultithreading.Hw4
