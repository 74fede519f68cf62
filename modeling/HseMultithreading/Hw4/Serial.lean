/-
  File:      HseMultithreading/Hw4/Serial.lean
  Subject:   THE TWO LEVELS OF THE hw4 QUEUE MEET: what the step machine does when calls do not
             overlap, and how long a call takes when they do.

  * **`calls_wait_free`** -- both calls are wait-free: a push returns within 262 steps of its own, a
    pop within 522, in every run and whatever the other parties do or fail to do; and a party inside
    a call always has its next step;
  * `PushRun`, `PopRun` -- a call whose steps follow each other; `pushRun_call`, `popRun_call`: from
    ANY queue it leaves what `tryPushMessage` and `tryPopMessage` say, result and caller's memory
    included;
  * **`serial_session`** -- the schedule that runs each call to its end before the next one begins
    (`serialSchedule`) leaves the queue of the complete calls, with the same answers on the way. So
    the laws about complete calls (Session.lean, Refusal.lean, Consumer.lean) are laws about runs of
    the step machine.
-/
import HseMultithreading.Lib.Calls
import HseMultithreading.Hw4.Session
import HseMultithreading.Hw4.Crash

namespace HseMultithreading.Hw4

open StepSystem CallRule

/-! ## 1. Wait-freedom -/

/-- How many steps a push has left at most. -/
def PushPc.left : PushPc → ℕ
  | .done _ => 1
  | .copyByte job _ k => 2 + (job.length - k)
  | .putLength job _ => 3 + job.length
  | .putType job _ => 4 + job.length
  | .compareExchange job _ => 5 + job.length
  | .fetchAdd job => 6 + job.length

theorem PushPc.left_le (pc : PushPc) : pc.left ≤ 262 := by
  have hfits (job : PushJob) : job.length ≤ 256 := job.fits
  cases pc with
  | done pushed => simp [PushPc.left]
  | fetchAdd job | compareExchange job index | putType job i | putLength job i
  | copyByte job i k =>
      have h := hfits job
      simp only [PushPc.left]
      omega

theorem PushPc.left_pos (pc : PushPc) : 0 < pc.left := by
  cases pc <;> simp only [PushPc.left] <;> omega

theorem PopPc.left_pos (pc : PopPc) : 0 < pc.left := by
  cases pc <;> simp only [PopPc.left] <;> omega

theorem pushStep_left {q : SharedQueueLayout} {pc pc' : PushPc} (h : (pushStep q pc).2 = some pc') :
    pc'.left < pc.left := by
  cases pc with
  | compareExchange job index =>
      simp only [pushStep] at h
      split at h <;> cases h <;> simp only [PushPc.left] <;> omega
  | copyByte job i k =>
      simp only [pushStep] at h
      split at h <;> cases h <;> simp only [PushPc.left] <;> omega
  | done pushed => cases h
  | _ => cases h; simp only [PushPc.left]; omega

/-- What producer `p` has left to do. -/
def System.pushLeft (s : System) (p : ℕ) : ℕ := ((s.producers p).map PushPc.left).getD 0

/-- What the consumer has left to do. -/
def System.popLeft (s : System) : ℕ := (s.consumer.map PopPc.left).getD 0

def Action.isProduce (p : ℕ) : Action → Bool
  | .produce p' => p' == p
  | _ => false

def Action.isConsume : Action → Bool
  | .consume => true
  | _ => false

section WaitFree

variable {s s' : System} {a : Action}

/-- A call of somebody else, or of oneself once one is idle, leaves a call in progress alone. -/
theorem producers_step (h : s.step a = some s') {p : ℕ} (hp : s.producers p ≠ none)
    (ha : a.isProduce p = false) : s'.producers p = s.producers p := by
  rcases step_cases h with ⟨p', args, rfl, -, hp', rfl⟩ | ⟨p', pc, rfl, -, -, rfl⟩ |
    ⟨args, rfl, -, rfl⟩ | ⟨pc, rfl, -, rfl⟩ | ⟨p', rfl, rfl⟩
  · refine Function.update_of_ne (fun e => hp ?_) _ _
    rw [e]
    exact hp'
  · exact Function.update_of_ne (fun e => by simp [Action.isProduce, e] at ha) _ _
  · rfl
  · rfl
  · rfl

theorem consumer_step (h : s.step a = some s') (hc : s.consumer ≠ none)
    (ha : a.isConsume = false) : s'.consumer = s.consumer := by
  rcases step_cases h with ⟨p', args, rfl, -, -, rfl⟩ | ⟨p', pc, rfl, -, -, rfl⟩ |
    ⟨args, rfl, hc', rfl⟩ | ⟨pc, rfl, -, rfl⟩ | ⟨p', rfl, rfl⟩
  · rfl
  · rfl
  · exact absurd hc' hc
  · cases ha
  · rfl

theorem pushLeft_eq_zero {p : ℕ} : s.pushLeft p = 0 ↔ s.producers p = none := by
  unfold System.pushLeft
  cases hp : s.producers p with
  | none => simp
  | some pc => simpa using Nat.ne_of_gt pc.left_pos

theorem popLeft_eq_zero : s.popLeft = 0 ↔ s.consumer = none := by
  unfold System.popLeft
  cases hc : s.consumer with
  | none => simp
  | some pc => simpa using Nat.ne_of_gt pc.left_pos

theorem pushLeft_own {p : ℕ} (h : s.step a = some s') (ha : a.isProduce p = true)
    (hz : s.pushLeft p ≠ 0) : s'.pushLeft p < s.pushLeft p := by
  obtain ⟨p', pc, rfl, -, hpc, rfl⟩ : ∃ p' pc, a = .produce p' ∧ s.halted p' = false ∧
      s.producers p' = some pc ∧ s' = s.produce p' pc := by
    rcases step_cases h with ⟨_, _, rfl, -⟩ | h | ⟨_, rfl, -⟩ | ⟨_, rfl, -⟩ | ⟨_, rfl, -⟩
    · cases ha
    · exact h
    · cases ha
    · cases ha
    · cases ha
  obtain rfl : p' = p := by simpa [Action.isProduce] using ha
  unfold System.pushLeft
  rw [hpc]
  simp only [System.produce, Function.update_self, Option.map_some, Option.getD_some]
  cases hn : (pushStep s.queue pc).2 with
  | none => exact pc.left_pos
  | some pc' => exact pushStep_left hn

theorem popLeft_own (h : s.step a = some s') (ha : a.isConsume = true) :
    s'.popLeft < s.popLeft := by
  obtain ⟨pc, hpc, rfl⟩ : ∃ pc, s.consumer = some pc ∧ s' = s.consume pc := by
    rcases step_cases h with ⟨_, _, rfl, -⟩ | ⟨_, _, rfl, -⟩ | ⟨_, rfl, -⟩ | ⟨pc, rfl, hpc⟩ |
      ⟨_, rfl, -⟩
    · cases ha
    · cases ha
    · cases ha
    · exact ⟨pc, hpc⟩
    · cases ha
  unfold System.popLeft
  rw [hpc]
  simp only [System.consume, Option.map_some, Option.getD_some]
  cases hn : (popStep s.queue pc).2 with
  | none => exact pc.left_pos
  | some pc' => exact popStep_left hn

theorem step_produce {p : ℕ} {pc : PushPc} (hp : s.producers p = some pc)
    (hh : s.halted p = false) : s.step (.produce p) = some (s.produce p pc) := by
  simp [System.step, hp, hh]

/-- **Both calls are wait-free.** In every state a party inside a call has its next step, unless it
    was killed. In every run, from every state: once a producer has taken 262 steps of its own, or
    the consumer 522, it has returned from the call it was in, however these steps lie between those
    of the others. -/
theorem calls_wait_free {as : List Action} (h : run System.step s as = some s') :
    (∀ p, s.producers p ≠ none → s.halted p = false → (s.step (.produce p)).isSome = true) ∧
    (s.consumer ≠ none → (s.step .consume).isSome = true) ∧
    (∀ p, 262 ≤ as.countP (Action.isProduce p) →
      ∃ before after t, as = before ++ after ∧ run System.step s before = some t ∧
        t.producers p = none) ∧
    (522 ≤ as.countP Action.isConsume →
      ∃ before after t, as = before ++ after ∧ run System.step s before = some t ∧
        t.consumer = none) := by
  refine ⟨fun p hp hh => ?_, fun hc => ?_, fun p hp => ?_, fun hc => ?_⟩
  · obtain ⟨pc, hpc⟩ := Option.ne_none_iff_exists'.mp hp
    rw [step_produce hpc hh]
    rfl
  · obtain ⟨pc, hpc⟩ := Option.ne_none_iff_exists'.mp hc
    rw [step_consume hpc]
    rfl
  · have hle : s.pushLeft p ≤ 262 := by
      unfold System.pushLeft
      cases s.producers p with
      | none => simp
      | some pc => exact pc.left_le
    obtain ⟨before, after, t, e, hrun, hz⟩ := exists_zero (fun s => s.pushLeft p)
      (Action.isProduce p) (fun s a s' hs ha hz => pushLeft_own hs ha hz)
      (fun s a s' hs ha hz => by
        have hkeep := producers_step hs (fun e => hz (pushLeft_eq_zero.mpr e)) ha
        unfold System.pushLeft
        rw [hkeep]) h (le_trans hle hp)
    exact ⟨before, after, t, e, hrun, pushLeft_eq_zero.mp hz⟩
  · have hle : s.popLeft ≤ 522 := by
      unfold System.popLeft
      cases s.consumer with
      | none => simp
      | some pc => exact pc.left_le
    obtain ⟨before, after, t, e, hrun, hz⟩ := exists_zero System.popLeft
      Action.isConsume (fun s a s' hs ha _ => popLeft_own hs ha)
      (fun s a s' hs ha hz => by
        have hkeep := consumer_step hs (fun e => hz (popLeft_eq_zero.mpr e)) ha
        unfold System.popLeft
        rw [hkeep]) h (le_trans hle hc)
    exact ⟨before, after, t, e, hrun, popLeft_eq_zero.mp hz⟩

end WaitFree

/-- A push of 256 bytes. -/
def fullLength : PushArgs := ⟨false, .text, some fun _ => 65, 256⟩

/-- A push of the largest payload, from inside the call: it takes all of its 262 steps. -/
theorem calls_wait_free_inside :
    ((System.start .fresh).callPush 0 fullLength).producers 0 ≠ none ∧
      ∃ s, run System.step ((System.start .fresh).callPush 0 fullLength)
          (List.replicate 262 (Action.produce 0)) = some s ∧
        ∃ before after t, List.replicate 262 (Action.produce 0) = before ++ after ∧
          run System.step ((System.start .fresh).callPush 0 fullLength) before = some t ∧
          t.producers 0 = none := by
  have hsome : (run System.step ((System.start .fresh).callPush 0 fullLength)
      (List.replicate 262 (Action.produce 0))).isSome = true := by decide +kernel
  obtain ⟨s, hs⟩ := Option.isSome_iff_exists.mp hsome
  refine ⟨?_, s, hs, (calls_wait_free hs).2.2.1 0 (by decide +kernel)⟩
  simp [System.callPush]

/-! ## 2. A push that nobody interrupts -/

/-- From queue `q` at `pc`, steps of the push alone lead to queue `q'` at `pc'`. -/
inductive PushRun : SharedQueueLayout → PushPc → SharedQueueLayout → PushPc → Prop where
  | here (q : SharedQueueLayout) (pc : PushPc) : PushRun q pc q pc
  | next (q q₁ q' : SharedQueueLayout) (pc pc₁ pc' : PushPc)
      (h : pushStep q pc = (q₁, some pc₁)) (hr : PushRun q₁ pc₁ q' pc') : PushRun q pc q' pc'

/-- The copy loop and the READY store behind it. -/
theorem pushRun_copy (job : PushJob) (i : Fin queueCapacity) (old : Payload) (n : ℕ) :
    ∀ {q : SharedQueueLayout} {k : ℕ}, job.length - k = n → k ≤ job.length →
      (q.slots i).payload = memcpy old job.data k →
      PushRun q (.copyByte job i k)
        (q.setSlot i ⟨SlotState.ready.code, (q.slots i).header, memcpy old job.data job.length⟩)
        (.done true) := by
  induction n with
  | zero =>
      intro q k hn hk hp
      obtain rfl : k = job.length := by omega
      refine .next _ _ _ _ _ _ (pushStep_publish (Nat.lt_irrefl _)) ?_
      rw [← hp]
      exact .here _ _
  | succ n ih =>
      intro q k hn hk hp
      have hlt : k < job.length := by omega
      refine .next _ _ _ _ _ _ (pushStep_copy hlt) ?_
      have hrest := ih (q := q.setSlot i { q.slots i with
        payload := (q.slots i).payload.put ⟨k, Nat.lt_of_lt_of_le hlt job.fits⟩ (job.data k) })
        (k := k + 1) (by omega) hlt (by rw [setSlot_slots_self, hp]; exact memcpy_succ _ _ _)
      rw [setSlot_slots_self, setSlot_setSlot] at hrest
      exact hrest

/-- A push that has claimed its slot fills it. -/
theorem pushRun_fill (q : SharedQueueLayout) (job : PushJob) (i : Fin queueCapacity) :
    PushRun q (.putType job i) (q.setSlot i (job.fill (q.slots i))) (.done true) := by
  refine .next _ _ _ _ _ _ rfl (.next _ _ _ _ _ _ rfl ?_)
  have hcopy := pushRun_copy job i (q.slots i).payload job.length
    (q := q.setSlot i { q.slots i with header := job.header }) (k := 0) (Nat.sub_zero _)
    (Nat.zero_le _) (by rw [setSlot_slots_self, memcpy_zero])
  simp only [setSlot_setSlot, setSlot_slots_self] at hcopy ⊢
  exact hcopy

/-- **A push that nobody interrupts is a `tryPushMessage`**, on any queue. -/
theorem pushRun_call (q : SharedQueueLayout) (a : PushArgs) :
    PushRun q a.enter (tryPushMessage q a).1 (.done (tryPushMessage q a).2) := by
  unfold PushArgs.enter
  cases hg : a.guard with
  | none =>
      rw [tryPushMessage_none hg]
      exact .here _ _
  | some job =>
      refine .next _ _ _ _ _ _ rfl ?_
      by_cases he : (q.slots (getSlot q.writeIndex)).state = SlotState.empty.code
      · rw [tryPushMessage_accepted hg he]
        refine .next _ _ _ _ _ _ (pushStep_claim he) ?_
        have hfill := pushRun_fill (({ q with writeIndex := q.writeIndex + 1 } :
          SharedQueueLayout).setSlot (getSlot q.writeIndex)
            { q.slots (getSlot q.writeIndex) with state := SlotState.writing.code }) job
          (getSlot q.writeIndex)
        rw [setSlot_setSlot, setSlot_slots_self] at hfill
        exact hfill
      · rw [tryPushMessage_occupied hg he]
        exact .next _ _ _ _ _ _ (pushStep_refused he) (.here _ _)

/-! ## 3. A pop that nobody interrupts -/

/-- From queue `q` at `pc`, steps of the pop alone lead to queue `q'` at `pc'`. -/
inductive PopRun : SharedQueueLayout → PopPc → SharedQueueLayout → PopPc → Prop where
  | here (q : SharedQueueLayout) (pc : PopPc) : PopRun q pc q pc
  | next (q q₁ q' : SharedQueueLayout) (pc pc₁ pc' : PopPc)
      (h : popStep q pc = (q₁, some pc₁)) (hr : PopRun q₁ pc₁ q' pc') : PopRun q pc q' pc'

theorem PopRun.trans {q q₁ q' : SharedQueueLayout} {pc pc₁ pc' : PopPc} (h : PopRun q pc q₁ pc₁)
    (h' : PopRun q₁ pc₁ q' pc') : PopRun q pc q' pc' := by
  induction h with
  | here => exact h'
  | next q q₂ q' pc pc₂ _ hs _ ih => exact .next _ _ _ _ _ _ hs (ih h')

/-- Copying one more byte out. -/
theorem copyOut_succ (dst : ℕ → UInt8) (src : Payload) {k : ℕ} (hk : k < maxPayloadSize) :
    Function.update (copyOut dst src k) k (src ⟨k, hk⟩) = copyOut dst src (k + 1) := by
  funext j
  by_cases e : j = k
  · subst e
    rw [Function.update_self]
    rw [copyOut, dif_pos ⟨Nat.lt_succ_self j, hk⟩]
  · rw [Function.update_of_ne e]
    have hiff : (j < k ∧ j < maxPayloadSize) ↔ (j < k + 1 ∧ j < maxPayloadSize) := by omega
    simp only [copyOut, hiff]

/-- The copy loop of a pop, and the store of the header behind it. -/
theorem popRun_copy (index : UInt64) (hd : FitHeader) (buffer : ℕ → UInt8) (n : ℕ) :
    ∀ {q : SharedQueueLayout} {job : PopJob} {k : ℕ}, hd.header.length.toNat - k = n →
      k ≤ hd.header.length.toNat →
      job.buffer = copyOut buffer (q.slots (getSlot index)).payload k →
      PopRun q (.copyByte job index hd k) q (.clearType { job with
        buffer := copyOut buffer (q.slots (getSlot index)).payload hd.header.length.toNat
        header := hd.header } index hd) := by
  induction n with
  | zero =>
      intro q job k hn hk hb
      obtain rfl : k = hd.header.length.toNat := by omega
      refine .next _ _ _ _ _ _ (popStep_copied (Nat.lt_irrefl _)) ?_
      rw [← hb]
      exact .here _ _
  | succ n ih =>
      intro q job k hn hk hb
      have hlt : k < hd.header.length.toNat := by omega
      refine .next _ _ _ _ _ _ (popStep_copy hlt) ?_
      refine ih (k := k + 1) (by omega) hlt ?_
      simp only [PopJob.put, hb]
      exact copyOut_succ _ _ _

/-- The clear loop, and the EMPTY store behind it. -/
theorem popRun_clear (job : PopJob) (index : UInt64) (hd : FitHeader) (old : Payload) (n : ℕ) :
    ∀ {q : SharedQueueLayout} {k : ℕ}, maxPayloadSize - k = n → k ≤ maxPayloadSize →
      (q.slots (getSlot index)).payload = memcpy old (fun _ => 0) k →
      PopRun q (.clearByte job index hd k)
        (q.setSlot (getSlot index)
          ⟨SlotState.empty.code, (q.slots (getSlot index)).header, fun _ => 0⟩)
        (.storeIndex job index hd) := by
  induction n with
  | zero =>
      intro q k hn hk hp
      obtain rfl : k = maxPayloadSize := by omega
      refine .next _ _ _ _ _ _ (popStep_release (Nat.lt_irrefl _)) ?_
      rw [memcpy_full] at hp
      rw [← hp]
      exact .here _ _
  | succ n ih =>
      intro q k hn hk hp
      have hlt : k < maxPayloadSize := by omega
      refine .next _ _ _ _ _ _ (popStep_clear hlt) ?_
      have hrest := ih (q := q.setSlot (getSlot index) { q.slots (getSlot index) with
        payload := (q.slots (getSlot index)).payload.put ⟨k, hlt⟩ 0 })
        (k := k + 1) (by omega) hlt
        (by rw [setSlot_slots_self, hp]; exact memcpy_succ _ (fun _ => 0) hlt)
      rw [setSlot_slots_self, setSlot_setSlot] at hrest
      exact hrest

/-- A pop that goes on to clear its slot releases it. -/
theorem popRun_release (q : SharedQueueLayout) (job : PopJob) (hd : FitHeader) :
    PopRun q (.clearType job q.readIndex hd) q.release
      (.done job (hd.header.type = job.expected)) := by
  refine .next _ _ _ _ _ _ rfl (.next _ _ _ _ _ _ rfl ?_)
  have hclear := popRun_clear job q.readIndex hd (q.slots (getSlot q.readIndex)).payload
    maxPayloadSize
    (q := q.setSlot (getSlot q.readIndex)
      { q.slots (getSlot q.readIndex) with header := ⟨MessageType.unknown.code, 0⟩ })
    (k := 0) rfl (Nat.zero_le _) (by rw [setSlot_slots_self, memcpy_zero])
  simp only [setSlot_setSlot, setSlot_slots_self] at hclear ⊢
  exact hclear.trans (.next _ _ _ _ _ _ rfl (.here _ _))

/-- Behind the guard the job has the caller's memory. -/
theorem PopArgs.guard_memory {a : PopArgs} {job : PopJob} (h : a.guard = some job) :
    a.outBuffer = some job.buffer ∧ a.outHeader = some job.header := by
  unfold PopArgs.guard at h
  split at h
  · cases h
  · split at h
    · rename_i hb hh
      obtain rfl := Option.some.inj h
      exact ⟨hb, hh⟩
    · cases h

/-- A pop whose slot is READY has its header in hand after four steps. -/
theorem popRun_header {q : SharedQueueLayout} (job : PopJob)
    (hr : (q.slots (getSlot q.readIndex)).state = SlotState.ready.code) :
    PopRun q (.loadIndex job) q (.onHeader job q.readIndex
      (q.slots (getSlot q.readIndex)).header.type (q.slots (getSlot q.readIndex)).header.length) :=
  .next _ _ _ _ _ _ rfl (.next _ _ _ _ _ _ (popStep_observe hr) (.next _ _ _ _ _ _ rfl
    (.next _ _ _ _ _ _ rfl (.here _ _))))

/-- A pop that does not take its slot gives up. -/
theorem popRun_keeps {q : SharedQueueLayout} {job : PopJob} (ht : ¬ Takes q job) :
    PopRun q (.loadIndex job) q (.done job false) := by
  by_cases hr : (q.slots (getSlot q.readIndex)).state = SlotState.ready.code
  · have hload := popRun_header job hr
    unfold PopPc.onHeader at hload
    split at hload
    · rename_i hfit
      have hsize : job.size < (q.slots (getSlot q.readIndex)).header.length.toNat :=
        Nat.not_le.mp fun hle => ht ⟨hr, hfit, hle⟩
      rw [if_pos hsize] at hload
      exact hload
    · exact hload
  · exact .next _ _ _ _ _ _ rfl (.next _ _ _ _ _ _ (popStep_notReady hr) (.here _ _))

/-- A pop that takes its slot releases it; with the expected type it has copied the message out. -/
theorem popRun_takes {q : SharedQueueLayout} {job : PopJob} (ht : Takes q job) :
    PopRun q (.loadIndex job) q.release
      (if (q.slots (getSlot q.readIndex)).header.type = job.expected then
        .done { job with
          buffer := copyOut job.buffer (q.slots (getSlot q.readIndex)).payload
            (q.slots (getSlot q.readIndex)).header.length.toNat
          header := (q.slots (getSlot q.readIndex)).header } true
      else .done job false) := by
  obtain ⟨hr, hfit, hsize⟩ := ht
  have hload := popRun_header job hr
  unfold PopPc.onHeader at hload
  rw [dif_pos hfit, if_neg (Nat.not_lt.mpr hsize)] at hload
  split at hload
  · rename_i htype
    have hcopy := popRun_copy q.readIndex ⟨_, hfit⟩ job.buffer _ (q := q) (k := 0) rfl
      (Nat.zero_le _) (copyOut_zero _ _).symm
    have hend := hload.trans (hcopy.trans (popRun_release q _ _))
    rw [decide_eq_true htype] at hend
    rw [if_pos htype]
    exact hend
  · rename_i htype
    have hend := hload.trans (popRun_release q job _)
    rw [decide_eq_false htype] at hend
    rw [if_neg htype]
    exact hend

/-- **A pop that nobody interrupts is a `tryPopMessage`**, on any queue: it leaves the same queue,
    the same caller's memory and the same result. -/
theorem popRun_call (q : SharedQueueLayout) (a : PopArgs) :
    ∃ job, PopRun q a.enter (tryPopMessage q a).queue (.done job (tryPopMessage q a).popped) ∧
      job.buffer = (tryPopMessage q a).outBuffer.getD (fun _ => 0) ∧
      job.header = (tryPopMessage q a).outHeader.getD ⟨0, 0⟩ := by
  unfold PopArgs.enter
  cases hg : a.guard with
  | none =>
      rw [tryPopMessage_none hg]
      exact ⟨_, .here _ _, rfl, rfl⟩
  | some job =>
      obtain ⟨hb, hh⟩ := PopArgs.guard_memory hg
      by_cases ht : Takes q job
      · have htakes := popRun_takes ht
        rw [tryPopMessage_takes hg ht]
        by_cases htype : (q.slots (getSlot q.readIndex)).header.type = job.expected
        · rw [if_pos htype] at htakes ⊢
          exact ⟨_, htakes, rfl, rfl⟩
        · rw [if_neg htype] at htakes ⊢
          exact ⟨job, htakes, by rw [hb]; rfl, by rw [hh]; rfl⟩
      · rw [tryPopMessage_keeps hg ht]
        exact ⟨job, popRun_keeps ht, by rw [hb]; rfl, by rw [hh]; rfl⟩

/-! ## 4. Calls one after the other -/

/-- What the next step of a party hands to its caller. -/
def System.answer (s : System) : Action → Option Reply
  | .produce p =>
    match s.producers p with
    | some (.done pushed) => some (.pushed pushed)
    | _ => none
  | .consume =>
    match s.consumer with
    | some (.done job popped) => some (.popped popped (some job.buffer) (some job.header))
    | _ => none
  | _ => none

/-- The step machine has no null pointers: a pop that was given one works on zeros. -/
def Reply.inMemory : Reply → Reply
  | .pushed accepted => .pushed accepted
  | .popped delivered outBuffer outHeader =>
    .popped delivered (some (outBuffer.getD fun _ => 0)) (some (outHeader.getD ⟨0, 0⟩))

/-- A call enters: a push by producer `p`, a pop by the consumer. -/
def Call.enter (p : ℕ) : Call → Action
  | .push a => .push p a
  | .pop a => .pop a

/-- The steps of a call: of producer `p`, or of the consumer. -/
def Call.party (p : ℕ) : Call → Action
  | .push _ => .produce p
  | .pop _ => .consume

/-- How many steps a call takes that nobody interrupts, its return included. -/
def stepsAlone {τ : Type} (step : SharedQueueLayout → τ → SharedQueueLayout × Option τ) :
    ℕ → SharedQueueLayout → τ → ℕ
  | 0, _, _ => 0
  | fuel + 1, q, pc =>
    match step q pc with
    | (_, none) => 1
    | (q, some pc) => stepsAlone step fuel q pc + 1

/-- A call never takes more than it has left when it enters. -/
def Call.steps (q : SharedQueueLayout) : Call → ℕ
  | .push a => stepsAlone pushStep a.enter.left q a.enter
  | .pop a => stepsAlone popStep a.enter.left q a.enter

/-- **Each call is run to its end before the next one begins.** -/
def serialSchedule : SharedQueueLayout → List (ℕ × Call) → List Action
  | _, [] => []
  | q, (p, c) :: calls =>
    c.enter p :: List.replicate (c.steps q) (c.party p) ++ serialSchedule (q.reply c).1 calls

def Action.isCall : Action → Bool
  | .push _ _ | .pop _ => true
  | .produce _ | .consume | .halt _ => false

/-- Nobody is inside a call, and nobody has been killed. -/
structure System.Idle (s : System) : Prop where
  producers : ∀ p, s.producers p = none
  consumer : s.consumer = none
  alive : ∀ p, s.halted p = false

section Serial

variable {s : System}

/-- A return to the caller is one step. -/
theorem stepsAlone_return {τ : Type} {step : SharedQueueLayout → τ → SharedQueueLayout × Option τ}
    {q q' : SharedQueueLayout} {pc : τ} (h : step q pc = (q', none)) {fuel : ℕ} (hf : 0 < fuel) :
    stepsAlone step fuel q pc = 1 := by
  obtain ⟨fuel, rfl⟩ := Nat.exists_eq_succ_of_ne_zero (Nat.ne_of_gt hf)
  simp only [stepsAlone, h]

theorem stepsAlone_next {τ : Type} {step : SharedQueueLayout → τ → SharedQueueLayout × Option τ}
    {q q₁ : SharedQueueLayout} {pc pc₁ : τ} (h : step q pc = (q₁, some pc₁)) (fuel : ℕ) :
    stepsAlone step (fuel + 1) q pc = stepsAlone step fuel q₁ pc₁ + 1 := by
  simp only [stepsAlone, h]

/-- The steps of a push alone, in the system. The last two facts count them: with enough fuel, what
    is counted from `pc` on is `n` more than from `pc'` on. -/
theorem run_pushRun {q q' : SharedQueueLayout} {pc pc' : PushPc} (h : PushRun q pc q' pc') {p : ℕ} :
    ∀ {s : System}, s.queue = q → s.producers p = some pc → s.halted p = false →
      ∃ n s', run System.step s (List.replicate n (.produce p)) = some s' ∧ s'.queue = q' ∧
        s'.producers = Function.update s.producers p (some pc') ∧ s'.halted = s.halted ∧
        s'.consumer = s.consumer ∧
        outputs System.step System.answer s (List.replicate n (.produce p)) = [] ∧
        n + pc'.left ≤ pc.left ∧
        ∀ fuel, stepsAlone pushStep (n + fuel) q pc = n + stepsAlone pushStep fuel q' pc' := by
  induction h with
  | here q pc =>
      intro s hq hp _
      exact ⟨0, s, rfl, hq, by rw [← hp, Function.update_eq_self], rfl, rfl, rfl, by omega,
        fun fuel => by rw [Nat.zero_add, Nat.zero_add]⟩
  | next q q₁ q' pc pc₁ pc' hstep _ ih =>
      intro s hq hp hh
      have hs := step_produce hp hh
      have hnext : (s.produce p pc).queue = q₁ ∧
          (s.produce p pc).producers = Function.update s.producers p (some pc₁) := by
        simp only [System.produce, hq, hstep, and_self]
      obtain ⟨n, s', hrun, h1, h2, h3, h4, h5, h6, h7⟩ := ih hnext.1
        (by rw [hnext.2, Function.update_self]) hh
      have hless := pushStep_left (congrArg Prod.snd hstep)
      have hquiet : s.answer (.produce p) = none := by
        cases pc with
        | done pushed => cases hstep
        | _ => simp only [System.answer, hp]
      refine ⟨n + 1, s', ?_, h1, ?_, h3, h4, ?_, by omega, fun fuel => ?_⟩
      · rw [List.replicate_succ, run, hs]
        exact hrun
      · rw [h2, hnext.2, Function.update_idem]
      · rw [List.replicate_succ, outputs, hquiet, hs]
        exact h5
      · rw [Nat.add_right_comm, stepsAlone_next hstep, h7 fuel]
        omega

/-- The steps of a pop alone, in the system. -/
theorem run_popRun {q q' : SharedQueueLayout} {pc pc' : PopPc} (h : PopRun q pc q' pc') :
    ∀ {s : System}, s.queue = q → s.consumer = some pc →
      ∃ n s', run System.step s (List.replicate n .consume) = some s' ∧ s'.queue = q' ∧
        s'.consumer = some pc' ∧ s'.halted = s.halted ∧ s'.producers = s.producers ∧
        outputs System.step System.answer s (List.replicate n .consume) = [] ∧
        n + pc'.left ≤ pc.left ∧
        ∀ fuel, stepsAlone popStep (n + fuel) q pc = n + stepsAlone popStep fuel q' pc' := by
  induction h with
  | here q pc =>
      intro s hq hc
      exact ⟨0, s, rfl, hq, hc, rfl, rfl, rfl, by omega,
        fun fuel => by rw [Nat.zero_add, Nat.zero_add]⟩
  | next q q₁ q' pc pc₁ pc' hstep _ ih =>
      intro s hq hc
      have hs := step_consume hc
      have hnext : (s.consume pc).queue = q₁ ∧ (s.consume pc).consumer = some pc₁ := by
        simp only [System.consume, hq, hstep, and_self]
      obtain ⟨n, s', hrun, h1, h2, h3, h4, h5, h6, h7⟩ := ih hnext.1 hnext.2
      have hless := popStep_left (congrArg Prod.snd hstep)
      have hquiet : s.answer .consume = none := by
        cases pc with
        | done job popped => cases hstep
        | _ => simp only [System.answer, hc]
      refine ⟨n + 1, s', ?_, h1, h2, h3, h4, ?_, by omega, fun fuel => ?_⟩
      · rw [List.replicate_succ, run, hs]
        exact hrun
      · rw [List.replicate_succ, outputs, hquiet, hs]
        exact h5
      · rw [Nat.add_right_comm, stepsAlone_next hstep, h7 fuel]
        omega

/-- A run of one party that ends with its return to the caller. -/
theorem run_return {s₁ s₂ s₃ : System} {c a : Action} {n : ℕ} {answer : Reply}
    (h1 : s.step c = some s₁) (hc : s.answer c = none)
    (h2 : run System.step s₁ (List.replicate n a) = some s₂)
    (hquiet : outputs System.step System.answer s₁ (List.replicate n a) = [])
    (h3 : s₂.step a = some s₃) (ha : s₂.answer a = some answer) :
    run System.step s (c :: List.replicate (n + 1) a) = some s₃ ∧
      outputs System.step System.answer s (c :: List.replicate (n + 1) a) = [answer] := by
  rw [List.replicate_succ']
  refine ⟨?_, ?_⟩
  · rw [run, h1, Option.bind_some, run_append, h2, Option.bind_some, run, h3]
    rfl
  · rw [outputs, hc, h1, Option.map_some, Option.getD_some, outputs_append h2, hquiet, outputs, ha,
      h3]
    rfl

theorem filter_party (n p : ℕ) (c : Call) :
    (List.replicate n (c.party p)).filter Action.isCall = [] := by
  have hparty : (c.party p).isCall = false := by cases c <;> rfl
  rw [List.filter_replicate, hparty]
  rfl

/-- With the fuel it has left, a call counts up to its return. -/
theorem stepsAlone_eq {τ : Type} {step : SharedQueueLayout → τ → SharedQueueLayout × Option τ}
    {q q' q'' : SharedQueueLayout} {pc pc' : τ} {n left : ℕ} (hleft : n + 1 ≤ left)
    (h : ∀ fuel, stepsAlone step (n + fuel) q pc = n + stepsAlone step fuel q' pc')
    (hend : step q' pc' = (q'', none)) : stepsAlone step left q pc = n + 1 := by
  obtain ⟨fuel, rfl⟩ := Nat.exists_eq_add_of_le (Nat.le_of_succ_le hleft)
  rw [h, stepsAlone_return hend (by omega)]

/-- **One complete call, step by step**: from an idle system back to an idle one. -/
theorem run_call (hI : s.Idle) (p : ℕ) (c : Call) :
    ∃ s', run System.step s (c.enter p :: List.replicate (c.steps s.queue) (c.party p)) = some s' ∧
      s'.Idle ∧ s'.queue = (s.queue.reply c).1 ∧
      outputs System.step System.answer s
          (c.enter p :: List.replicate (c.steps s.queue) (c.party p)) =
        [(s.queue.reply c).2.inMemory] := by
  cases c with
  | push a =>
      have h1 : s.step (.push p a) = some (s.callPush p a) := by
        simp [System.step, hI.producers p, hI.alive p]
      obtain ⟨n, s₂, h2, hq, hp, hh, hc, hquiet, hleft, hsteps⟩ :=
        run_pushRun (pushRun_call s.queue a) (s := s.callPush p a) (p := p) rfl
          (Function.update_self _ _ _) (hI.alive p)
      have hcount : (Call.push a).steps s.queue = n + 1 := stepsAlone_eq hleft hsteps rfl
      have hdone : s₂.producers p = some (.done (tryPushMessage s.queue a).2) := by
        rw [hp, Function.update_self]
      have h3 := step_produce hdone (by rw [hh]; exact hI.alive p)
      have hans : s₂.answer (.produce p) = some (.pushed (tryPushMessage s.queue a).2) := by
        simp only [System.answer, hdone]
      obtain ⟨hrun, hout⟩ := run_return h1 rfl h2 hquiet h3 hans
      rw [hcount]
      refine ⟨_, hrun, ⟨fun p' => ?_, hc.trans hI.consumer, fun p' => ?_⟩, hq, hout⟩
      · by_cases e : p' = p
        · subst e
          exact Function.update_self _ _ _
        · simp only [System.produce, System.callPush, hp, Function.update_of_ne e]
          exact hI.producers p'
      · exact (congrFun hh p').trans (hI.alive p')
  | pop a =>
      have h1 : s.step (.pop a) = some (s.callPop a) := by simp [System.step, hI.consumer]
      obtain ⟨job, hpop, hb, hd⟩ := popRun_call s.queue a
      obtain ⟨n, s₂, h2, hq, hc, hh, hp, hquiet, hleft, hsteps⟩ :=
        run_popRun hpop (s := s.callPop a) rfl rfl
      have hcount : (Call.pop a).steps s.queue = n + 1 := stepsAlone_eq hleft hsteps rfl
      have hans : s₂.answer .consume = some (.popped (tryPopMessage s.queue a).popped
          (some job.buffer) (some job.header)) := by
        simp only [System.answer, hc]
      obtain ⟨hrun, hout⟩ := run_return h1 rfl h2 hquiet (step_consume hc) hans
      rw [hcount]
      refine ⟨_, hrun, ⟨fun p' => (congrFun hp p').trans (hI.producers p'), rfl,
        fun p' => (congrFun hh p').trans (hI.alive p')⟩, hq, ?_⟩
      rw [hb, hd] at hout
      exact hout

/-- The calls of a list, from an idle system. -/
theorem run_calls (calls : List (ℕ × Call)) : ∀ {s : System} {t : Session}, s.Idle →
    s.queue = t.queue →
    ∃ s', run System.step s (serialSchedule s.queue calls) = some s' ∧ s'.Idle ∧
      (serialSchedule s.queue calls).filter Action.isCall =
        calls.map (fun c => c.2.enter c.1) ∧
      s'.queue = ((calls.map Prod.snd).foldl Session.call t).queue ∧
      outputs System.step System.answer s (serialSchedule s.queue calls) =
        (totalAnswers SharedQueueLayout.reply s.queue (calls.map Prod.snd)).map
          Reply.inMemory := by
  induction calls with
  | nil => exact fun hI hq => ⟨_, rfl, hI, rfl, hq, rfl⟩
  | cons c calls ih =>
      intro s t hI hq
      obtain ⟨s₁, h1, hI₁, hq₁, hout⟩ := run_call hI c.1 c.2
      obtain ⟨s₂, h2, hI₂, hfil, hq₂, hout₂⟩ := ih (t := t.call c.2) hI₁
        (by rw [hq₁, call_queue, hq])
      have henter : (c.2.enter c.1).isCall = true := by cases c.2 <;> rfl
      rw [hq₁] at h2 hfil hout₂
      unfold serialSchedule
      refine ⟨s₂, ?_, hI₂, ?_, hq₂, ?_⟩
      · rw [run_append, h1]
        exact h2
      · rw [List.filter_append, List.filter_cons_of_pos henter, filter_party, hfil]
        rfl
      · rw [outputs_append h1, hout, hout₂]
        rfl

end Serial

/-- **A session is a serial run.** For every sequence of complete calls, made by the consumer and
    any producers, the schedule that runs each call to its end before the next one begins makes
    these calls in this order and no other; it ends with the queue of the session and has answered
    what the complete calls answer. -/
theorem serial_session (memory : SharedQueueLayout) (calls : List (ℕ × Call)) :
    ∃ s, run System.step (.start memory) (serialSchedule (initQueue memory) calls) = some s ∧
      s.Idle ∧
      (serialSchedule (initQueue memory) calls).filter Action.isCall =
        calls.map (fun c => c.2.enter c.1) ∧
      s.queue = ((calls.map Prod.snd).foldl Session.call (.start memory)).queue ∧
      outputs System.step System.answer (.start memory)
          (serialSchedule (initQueue memory) calls) =
        (totalAnswers SharedQueueLayout.reply (initQueue memory) (calls.map Prod.snd)).map
          Reply.inMemory :=
  run_calls calls ⟨fun _ => rfl, rfl, fun _ => rfl⟩ rfl

end HseMultithreading.Hw4
