/-
  File:      HseMultithreading/LockFree/Transfer.lean
  Subject:   `main` of `lock_free/spsc_stack.cpp`: a producer pushes `0, 1, …, N - 1` into an
             `SPSCStack`, a consumer pops until it has got `N` values.

  The stack is the one with a mutex; the two threads start together at a latch. The consumer does
  not wait for a value: a `Pop` of the empty stack returns nothing, and the loop goes on.

  * `Transfer`, `Transfer.step` -- the two threads: arriving at the latch, every test of a loop,
    every lock, access to `m_stack` and unlock is a step.
  * `Transfer.passing` -- what `main` does to the values, read as `StackOrder.Passing`; a step is a
    turn there (`passing_push`, `passing_pop`) or none, and every turn is four steps here
    (`run_turns`).
  * **`transfer_orders`** -- the orders in which the consumer can get the values are exactly the
    rearrangements of `0, …, N - 1` in which no value comes before a smaller one that comes before
    one in between.
  * **`transfer_returns`** -- a run has at most `8 * N + 6` steps and four for each `Pop` of the
    empty stack, and from every state that `main` can be in it can still return.
-/
import HseMultithreading.Lib.StackOrder
import HseMultithreading.LockFree.Sequential

namespace HseMultithreading.LockFree

open StepSystem StackOrder

/-! ## 1. The machine -/

inductive Side where
  | producer
  | consumer
  deriving DecidableEq

/-- What the producer does NEXT. -/
inductive PusherPc where
  | arrive
  | wait
  | loop (i : ℕ)
  | lock (i : ℕ)
  | push (i : ℕ)
  | unlock (i : ℕ)
  | returned
  deriving DecidableEq

/-- What the consumer does NEXT, with `consumed`; `hit` says whether `Pop` has got a value. -/
inductive PopperPc where
  | arrive
  | wait
  | loop (consumed : ℕ)
  | lock (consumed : ℕ)
  | pop (consumed : ℕ)
  | unlock (consumed : ℕ) (hit : Bool)
  | returned
  deriving DecidableEq

/-- The latch, the owner of `m_mtx`, the stack and the two threads. Beside them an observer keeps
    the values popped and the number of pops that found nothing. -/
structure Transfer where
  latch : ℕ
  mtx : Option Side
  stack : SPSCStack ℕ
  pusher : PusherPc
  popper : PopperPc
  popped : List ℕ
  misses : ℕ

def Transfer.start : Transfer := ⟨2, none, ⟨[]⟩, .arrive, .arrive, [], 0⟩

/-- The next step of the producer, with `N` for `NumberOfElements`. -/
def Transfer.pusherStep (N : ℕ) (s : Transfer) : PusherPc → Option Transfer
  | .arrive => some { s with latch := s.latch - 1, pusher := .wait }
  | .wait => if s.latch = 0 then some { s with pusher := .loop 0 } else none
  | .loop i => some { s with pusher := if i < N then .lock i else .returned }
  | .lock i =>
    match s.mtx with
    | none => some { s with mtx := some .producer, pusher := .push i }
    | some _ => none
  | .push i => some { s with stack := s.stack.push i, pusher := .unlock i }
  | .unlock i => some { s with mtx := none, pusher := .loop (i + 1) }
  | .returned => none

/-- The next step of the consumer. -/
def Transfer.popperStep (N : ℕ) (s : Transfer) : PopperPc → Option Transfer
  | .arrive => some { s with latch := s.latch - 1, popper := .wait }
  | .wait => if s.latch = 0 then some { s with popper := .loop 0 } else none
  | .loop consumed => some { s with popper := if consumed < N then .lock consumed else .returned }
  | .lock consumed =>
    match s.mtx with
    | none => some { s with mtx := some .consumer, popper := .pop consumed }
    | some _ => none
  | .pop consumed =>
    match s.stack.pop with
    | (some value, stack) =>
      some { s with
        stack := stack, popped := s.popped ++ [value], popper := .unlock consumed true }
    | (none, stack) =>
      some { s with stack := stack, misses := s.misses + 1, popper := .unlock consumed false }
  | .unlock consumed hit =>
    some { s with mtx := none, popper := .loop (if hit then consumed + 1 else consumed) }
  | .returned => none

def Transfer.step (N : ℕ) (s : Transfer) : Side → Option Transfer
  | .producer => s.pusherStep N s.pusher
  | .consumer => s.popperStep N s.popper

/-- Both threads have returned, so `main` does. -/
def Transfer.Finished (s : Transfer) : Prop := s.pusher = .returned ∧ s.popper = .returned

/-! ## 2. The values on their way -/

/-- The values pushed so far. -/
def PusherPc.pushes (N : ℕ) : PusherPc → ℕ
  | .arrive | .wait => 0
  | .loop i | .lock i | .push i => i
  | .unlock i => i + 1
  | .returned => N

/-- **What `main` does to the values.** -/
def Transfer.passing (N : ℕ) (s : Transfer) : Passing ℕ :=
  ⟨List.range' (s.pusher.pushes N) (N - s.pusher.pushes N), s.stack.stack, s.popped⟩

def PusherPc.inside : PusherPc → Bool
  | .push _ | .unlock _ => true
  | _ => false

def PopperPc.inside : PopperPc → Bool
  | .pop _ | .unlock _ _ => true
  | _ => false

def PusherPc.toArrive : PusherPc → ℕ
  | .arrive => 1
  | _ => 0

def PopperPc.toArrive : PopperPc → ℕ
  | .arrive => 1
  | _ => 0

/-- What the producer's places say about `i`. -/
def PusherPc.Within (N : ℕ) : PusherPc → Prop
  | .arrive | .wait | .returned => True
  | .loop i => i ≤ N
  | .lock i | .push i | .unlock i => i < N

/-- What the consumer's places say about the number `n` of values popped. -/
def PopperPc.Within (N n : ℕ) : PopperPc → Prop
  | .arrive | .wait => n = 0
  | .loop consumed => n = consumed
  | .lock consumed | .pop consumed => n = consumed ∧ consumed < N
  | .unlock consumed hit => (n = if hit then consumed + 1 else consumed) ∧ consumed < N
  | .returned => n = N

/-- **The invariant of `main`.** -/
structure TransferInv (N : ℕ) (s : Transfer) : Prop where
  pushing : s.mtx = some .producer ↔ s.pusher.inside = true
  popping : s.mtx = some .consumer ↔ s.popper.inside = true
  latch : s.latch = s.pusher.toArrive + s.popper.toArrive
  pusher : s.pusher.Within N
  popper : s.popper.Within N s.popped.length
  sound : (s.passing N).Sound (List.range N)

theorem transferInv_start (N : ℕ) : TransferInv N .start where
  pushing := ⟨fun h => (by cases h), fun h => (by cases h)⟩
  popping := ⟨fun h => (by cases h), fun h => (by cases h)⟩
  latch := rfl
  pusher := trivial
  popper := rfl
  sound := by
    have h : (Passing.start (List.range N)).Sound (List.range N) :=
      sound_start List.pairwise_lt_range
    have e : Transfer.start.passing N = .start (List.range N) := by
      simp only [Transfer.passing, Transfer.start, PusherPc.pushes, Nat.sub_zero, Passing.start,
        List.range_eq_range']
    rw [e]
    exact h

section Steps

variable {N : ℕ} {s s' : Transfer}

/-- The number of values on their way. -/
theorem TransferInv.length_eq (h : TransferInv N s) :
    s.popped.length + s.stack.stack.length + (N - s.pusher.pushes N) = N := by
  have hlen := h.sound.perm.length_eq
  simpa only [Transfer.passing, List.length_append, List.length_range', List.length_range]
    using hlen

/-- The producer pushes the next value. -/
theorem passing_push {i : ℕ} (hpc : s.pusher = .push i) (hi : i < N) :
    (s.passing N).step .push = some (Transfer.passing N { s with
      stack := s.stack.push i, pusher := .unlock i }) := by
  have e : List.range' i (N - i) = i :: List.range' (i + 1) (N - (i + 1)) := by
    rw [show N - i = N - (i + 1) + 1 by omega, List.range'_succ]
  simp only [Transfer.passing, hpc, PusherPc.pushes, Passing.step, e, SPSCStack.push]

/-- The consumer pops the top. -/
theorem passing_pop {value : ℕ} {stack : List ℕ} (hst : s.stack = ⟨value :: stack⟩)
    (popper : PopperPc) :
    (s.passing N).step .pop = some (Transfer.passing N { s with
      stack := ⟨stack⟩, popped := s.popped ++ [value], popper := popper }) := by
  simp only [Transfer.passing, hst, Passing.step]

/-- A step of the producer that leaves the values alone. -/
theorem TransferInv.glide (h : TransferInv N s) {latch : ℕ} {mtx : Option Side} (new : PusherPc)
    (hpushing : mtx = some .producer ↔ new.inside = true)
    (hpopping : mtx = some .consumer ↔ s.mtx = some .consumer)
    (hlatch : latch = new.toArrive + s.popper.toArrive) (hwithin : new.Within N)
    (hpushes : new.pushes N = s.pusher.pushes N) :
    TransferInv N { s with latch := latch, mtx := mtx, pusher := new } where
  pushing := hpushing
  popping := hpopping.trans h.popping
  latch := hlatch
  pusher := hwithin
  popper := h.popper
  sound := by
    have hsound := h.sound
    unfold Transfer.passing at hsound ⊢
    rw [hpushes]
    exact hsound

theorem TransferInv.pusher_step (h : TransferInv N s) {pc : PusherPc} (hpc : s.pusher = pc)
    (hs : s.pusherStep N pc = some s') : TransferInv N s' := by
  have hin := h.pushing
  have hlatch := h.latch
  have hwithin := h.pusher
  rw [hpc] at hin hlatch hwithin
  cases pc with
  | arrive =>
      obtain rfl := Option.some.inj hs
      refine h.glide .wait (by simpa [PusherPc.inside] using hin) Iff.rfl ?_ trivial
        (by rw [hpc]; rfl)
      simp only [PusherPc.toArrive] at hlatch ⊢
      omega
  | wait =>
      simp only [Transfer.pusherStep] at hs
      split at hs
      · obtain rfl := Option.some.inj hs
        exact h.glide (.loop 0) (by simpa [PusherPc.inside] using hin) Iff.rfl hlatch
          (Nat.zero_le N) (by rw [hpc]; rfl)
      · cases hs
  | loop i =>
      obtain rfl := Option.some.inj hs
      split
      next hi =>
        exact h.glide (.lock i) (by simpa [PusherPc.inside] using hin) Iff.rfl hlatch hi
          (by rw [hpc]; rfl)
      next hi =>
        refine h.glide .returned (by simpa [PusherPc.inside] using hin) Iff.rfl hlatch trivial ?_
        rw [hpc]
        exact Nat.le_antisymm (Nat.le_of_not_lt hi) hwithin
  | lock i =>
      simp only [Transfer.pusherStep] at hs
      cases hm : s.mtx with
      | some _ => rw [hm] at hs; cases hs
      | none =>
          rw [hm] at hs
          obtain rfl := Option.some.inj hs
          exact h.glide (.push i) (by simp [PusherPc.inside]) (by simp [hm]) hlatch hwithin
            (by rw [hpc]; rfl)
  | push i =>
      obtain rfl := Option.some.inj hs
      exact ⟨hin, h.popping, hlatch, hwithin, h.popper, h.sound.step (passing_push hpc hwithin)⟩
  | unlock i =>
      obtain rfl := Option.some.inj hs
      have hm : s.mtx = some .producer := hin.mpr rfl
      exact h.glide (.loop (i + 1)) (by simp [PusherPc.inside]) (by simp [hm]) hlatch hwithin
        (by rw [hpc]; rfl)
  | returned => cases hs

/-- A step of the consumer that leaves the values alone. -/
theorem TransferInv.slide (h : TransferInv N s) {latch misses : ℕ} {mtx : Option Side}
    (new : PopperPc) (hpopping : mtx = some .consumer ↔ new.inside = true)
    (hpushing : mtx = some .producer ↔ s.mtx = some .producer)
    (hlatch : latch = s.pusher.toArrive + new.toArrive)
    (hwithin : new.Within N s.popped.length) :
    TransferInv N { s with latch := latch, mtx := mtx, misses := misses, popper := new } where
  pushing := hpushing.trans h.pushing
  popping := hpopping
  latch := hlatch
  pusher := h.pusher
  popper := hwithin
  sound := h.sound

theorem TransferInv.popper_step (h : TransferInv N s) {pc : PopperPc} (hpc : s.popper = pc)
    (hs : s.popperStep N pc = some s') : TransferInv N s' := by
  have hin := h.popping
  have hlatch := h.latch
  have hwithin := h.popper
  rw [hpc] at hin hlatch hwithin
  cases pc with
  | arrive =>
      obtain rfl := Option.some.inj hs
      refine h.slide .wait (by simpa [PopperPc.inside] using hin) Iff.rfl ?_ hwithin
      simp only [PopperPc.toArrive] at hlatch ⊢
      omega
  | wait =>
      simp only [Transfer.popperStep] at hs
      split at hs
      · obtain rfl := Option.some.inj hs
        exact h.slide (.loop 0) (by simpa [PopperPc.inside] using hin) Iff.rfl hlatch hwithin
      · cases hs
  | loop c =>
      obtain rfl := Option.some.inj hs
      split
      next hc =>
        exact h.slide (.lock c) (by simpa [PopperPc.inside] using hin) Iff.rfl hlatch ⟨hwithin, hc⟩
      next hc =>
        refine h.slide .returned (by simpa [PopperPc.inside] using hin) Iff.rfl hlatch ?_
        have hlen := h.length_eq
        simp only [PopperPc.Within] at hwithin ⊢
        omega
  | lock c =>
      simp only [Transfer.popperStep] at hs
      cases hm : s.mtx with
      | some _ => rw [hm] at hs; cases hs
      | none =>
          rw [hm] at hs
          obtain rfl := Option.some.inj hs
          exact h.slide (.pop c) (by simp [PopperPc.inside]) (by simp [hm]) hlatch hwithin
  | pop c =>
      have hm : s.mtx = some .consumer := hin.mpr rfl
      obtain ⟨hlen, hc⟩ := hwithin
      cases hst : s.stack with
      | mk stack =>
          cases stack with
          | nil =>
              simp only [Transfer.popperStep, hst, SPSCStack.pop] at hs
              obtain rfl := Option.some.inj hs
              rw [← hst]
              exact h.slide (.unlock c false) (by simp [PopperPc.inside, hm]) Iff.rfl hlatch
                ⟨hlen, hc⟩
          | cons value rest =>
              simp only [Transfer.popperStep, hst, SPSCStack.pop] at hs
              obtain rfl := Option.some.inj hs
              refine ⟨h.pushing, by simp [PopperPc.inside, hm], hlatch, h.pusher, ⟨?_, hc⟩,
                h.sound.step (passing_pop hst _)⟩
              simp only [List.length_append, List.length_singleton, if_true, hlen]
  | unlock c hit =>
      obtain rfl := Option.some.inj hs
      have hm : s.mtx = some .consumer := hin.mpr rfl
      exact h.slide (.loop (if hit then c + 1 else c)) (by simp [PopperPc.inside]) (by simp [hm])
        hlatch hwithin.1
  | returned => cases hs

theorem TransferInv.step (h : TransferInv N s) {a : Side} (hs : s.step N a = some s') :
    TransferInv N s' := by
  cases a with
  | producer => exact h.pusher_step rfl hs
  | consumer => exact h.popper_step rfl hs

theorem transferInv_reach (h : Reach (Transfer.step N) .start s) : TransferInv N s :=
  h.invariant (I := TransferInv N) (transferInv_start N) fun _ _ _ hI _ hs => hI.step hs

/-- When both threads have returned, all values have been popped. -/
theorem TransferInv.at_end (h : TransferInv N s) (hfin : s.Finished) :
    s.popped.Perm (List.range N) ∧ Avoids s.popped := by
  have hlen := h.length_eq
  have hpopped := h.popper
  rw [hfin.2] at hpopped
  have hpopped : s.popped.length = N := hpopped
  have hst : s.stack.stack = [] := List.length_eq_zero_iff.mp (by omega)
  have hpass : s.passing N = ⟨[], [], s.popped⟩ := by
    simp only [Transfer.passing, hfin.1, PusherPc.pushes, Nat.sub_self, List.range'_zero, hst]
  have hsound := h.sound
  rw [hpass] at hsound
  exact ⟨by simpa using hsound.perm, by simpa using hsound.avoids⟩

/-! ## 3. Every order there can be -/

/-- Both threads stand at the test of their loops. -/
structure Transfer.Resting (N : ℕ) (s : Transfer) : Prop where
  inv : TransferInv N s
  free : s.mtx = none
  pusher : ∃ i, s.pusher = .loop i
  popper : ∃ c, s.popper = .loop c

/-- The four steps of a push. -/
theorem Transfer.Resting.push (h : s.Resting N) {p : Passing ℕ}
    (hp : (s.passing N).step .push = some p) :
    ∃ s', run (Transfer.step N) s (List.replicate 4 .producer) = some s' ∧ s'.Resting N ∧
      s'.passing N = p := by
  obtain ⟨i, hi⟩ := h.pusher
  have hlt : i < N := by
    by_contra hge
    have hnil : List.range' i (N - i) = [] := by
      rw [Nat.sub_eq_zero_of_le (Nat.not_lt.mp hge)]
      rfl
    simp only [Transfer.passing, hi, PusherPc.pushes, Passing.step, hnil] at hp
    cases hp
  have hrun : run (Transfer.step N) s (List.replicate 4 .producer) =
      some { s with mtx := none, stack := s.stack.push i, pusher := .loop (i + 1) } := by
    simp [run, Transfer.step, Transfer.pusherStep, hi, hlt, h.free, List.replicate_succ]
  refine ⟨_, hrun, ⟨?_, rfl, ⟨_, rfl⟩, h.popper⟩, ?_⟩
  · exact (reach_run hrun).invariant (I := TransferInv N) h.inv fun _ _ _ hI _ hs => hI.step hs
  · have hpush := passing_push (s := { s with pusher := .push i }) rfl hlt
    have hsame : Transfer.passing N { s with pusher := .push i } = s.passing N := by
      simp only [Transfer.passing, hi, PusherPc.pushes]
    rw [hsame, hp] at hpush
    exact (Option.some.inj hpush).symm

/-- The four steps of a pop. -/
theorem Transfer.Resting.pop (h : s.Resting N) {p : Passing ℕ}
    (hp : (s.passing N).step .pop = some p) :
    ∃ s', run (Transfer.step N) s (List.replicate 4 .consumer) = some s' ∧ s'.Resting N ∧
      s'.passing N = p := by
  obtain ⟨c, hc⟩ := h.popper
  cases hst : s.stack with
  | mk stack =>
      cases stack with
      | nil =>
          simp only [Transfer.passing, hst, Passing.step] at hp
          cases hp
      | cons value rest =>
          have hlt : c < N := by
            have hlen := h.inv.length_eq
            have hpopped := h.inv.popper
            rw [hc] at hpopped
            have hpopped : s.popped.length = c := hpopped
            rw [hst, List.length_cons] at hlen
            omega
          have hrun : run (Transfer.step N) s (List.replicate 4 .consumer) =
              some { s with
                mtx := none, stack := ⟨rest⟩, popped := s.popped ++ [value],
                popper := .loop (c + 1) } := by
            simp [run, Transfer.step, Transfer.popperStep, hc, hlt, h.free, hst, SPSCStack.pop,
              List.replicate_succ]
          refine ⟨_, hrun, ⟨?_, rfl, h.pusher, ⟨_, rfl⟩⟩, ?_⟩
          · exact (reach_run hrun).invariant (I := TransferInv N) h.inv fun _ _ _ hI _ hs =>
              hI.step hs
          · rw [passing_pop hst s.popper] at hp
            exact Option.some.inj hp

/-- **Every way of taking turns is a schedule of the two threads.** -/
theorem run_turns (as : List Turn) : ∀ {s : Transfer} {p : Passing ℕ}, s.Resting N →
    run Passing.step (s.passing N) as = some p →
    ∃ s', Reach (Transfer.step N) s s' ∧ s'.Resting N ∧ s'.passing N = p := by
  induction as with
  | nil => exact fun h hp => ⟨_, .start, h, Option.some.inj hp⟩
  | cons a as ih =>
      intro s p h hp
      obtain ⟨p₁, hp₁, hrest⟩ := Option.bind_eq_some_iff.mp hp
      obtain ⟨s₁, hrun, h₁, rfl⟩ : ∃ s', Reach (Transfer.step N) s s' ∧ s'.Resting N ∧
          s'.passing N = p₁ := by
        cases a with
        | push =>
            obtain ⟨s', hrun, hs'⟩ := h.push hp₁
            exact ⟨s', reach_run hrun, hs'⟩
        | pop =>
            obtain ⟨s', hrun, hs'⟩ := h.pop hp₁
            exact ⟨s', reach_run hrun, hs'⟩
      obtain ⟨s₂, hrun₂, hs₂⟩ := ih h₁ hrest
      exact ⟨s₂, hrun.trans hrun₂, hs₂⟩

/-- Both threads have come through the latch. -/
theorem run_latch (N : ℕ) : ∃ s, Reach (Transfer.step N) .start s ∧ s.Resting N ∧
    s.passing N = .start (List.range N) := by
  have hrun : run (Transfer.step N) .start [.producer, .consumer, .producer, .consumer] =
      some ⟨0, none, ⟨[]⟩, .loop 0, .loop 0, [], 0⟩ := rfl
  refine ⟨_, reach_run hrun, ⟨transferInv_reach (reach_run hrun), rfl, ⟨0, rfl⟩, ⟨0, rfl⟩⟩, ?_⟩
  simp only [Transfer.passing, PusherPc.pushes, Nat.sub_zero, Passing.start, List.range_eq_range']

/-- When all values have come out, both threads return. -/
theorem Transfer.Resting.finish (h : s.Resting N) {l : List ℕ} (hp : s.passing N = ⟨[], [], l⟩) :
    ∃ s', Reach (Transfer.step N) s s' ∧ s'.Finished ∧ s'.popped = l := by
  obtain ⟨i, hi⟩ := h.pusher
  obtain ⟨c, hc⟩ := h.popper
  have hpushed := congrArg (fun p => p.input.length) hp
  have hstack := congrArg (fun p => p.stack.length) hp
  simp only [Transfer.passing, List.length_range', List.length_nil] at hpushed hstack
  have hlen := h.inv.length_eq
  have hpopped := h.inv.popper
  rw [hc] at hpopped
  have hpopped : s.popped.length = c := hpopped
  rw [hi] at hpushed
  have hpushed : N - i = 0 := hpushed
  have hrun : run (Transfer.step N) s [.producer, .consumer] =
      some { s with pusher := .returned, popper := .returned } := by
    have hi' : ¬ i < N := by omega
    have hc' : ¬ c < N := by
      rw [hi] at hlen
      have hlen : s.popped.length + s.stack.stack.length + (N - i) = N := hlen
      omega
    simp [run, Transfer.step, Transfer.pusherStep, Transfer.popperStep, hi, hc, hi', hc']
  exact ⟨_, reach_run hrun, ⟨rfl, rfl⟩, congrArg Passing.output hp⟩

end Steps

/-- **The orders in which the consumer can get the values** are exactly the rearrangements of
    `0, …, N - 1` in which no value comes before a smaller one that comes before one in between: the
    consumer gets each value once, and whatever the threads do not forbid does happen. -/
theorem transfer_orders (N : ℕ) (l : List ℕ) :
    (∃ s, Reach (Transfer.step N) .start s ∧ s.Finished ∧ s.popped = l) ↔
      l.Perm (List.range N) ∧ Avoids l := by
  constructor
  · rintro ⟨s, hs, hfin, rfl⟩
    exact (transferInv_reach hs).at_end hfin
  · intro h
    obtain ⟨as, hturns⟩ := (passes_iff List.pairwise_lt_range l).mpr h
    obtain ⟨s₀, hlatch, h₀, hpass⟩ := run_latch N
    rw [← hpass] at hturns
    obtain ⟨s₁, hrun, h₁, hend⟩ := run_turns as h₀ hturns
    obtain ⟨s₂, hlast, hs₂⟩ := h₁.finish hend
    exact ⟨s₂, (hlatch.trans hrun).trans hlast, hs₂⟩

/-! ## 4. `main` returns -/

/-- The steps the producer has taken. -/
def PusherPc.taken (N : ℕ) : PusherPc → ℕ
  | .arrive => 0
  | .wait => 1
  | .loop i => 4 * i + 2
  | .lock i => 4 * i + 3
  | .push i => 4 * i + 4
  | .unlock i => 4 * i + 5
  | .returned => 4 * N + 3

/-- The steps the consumer has taken, without four for each pop that found nothing. -/
def PopperPc.taken (N : ℕ) : PopperPc → ℕ
  | .arrive => 0
  | .wait => 1
  | .loop c => 4 * c + 2
  | .lock c => 4 * c + 3
  | .pop c => 4 * c + 4
  | .unlock c hit => if hit then 4 * c + 5 else 4 * c + 1
  | .returned => 4 * N + 3

section Returns

variable {N : ℕ} {s s' : Transfer}

theorem TransferInv.pusher_taken (h : TransferInv N s) : s.pusher.taken N ≤ 4 * N + 3 := by
  have hwithin := h.pusher
  cases hpc : s.pusher <;> rw [hpc] at hwithin <;>
    simp only [PusherPc.Within, PusherPc.taken] at hwithin ⊢ <;> omega

theorem TransferInv.popper_taken (h : TransferInv N s) : s.popper.taken N ≤ 4 * N + 3 := by
  have hwithin := h.popper
  have hlen := h.length_eq
  cases hpc : s.popper with
  | unlock c hit =>
      rw [hpc] at hwithin
      have hc : c < N := hwithin.2
      simp only [PopperPc.taken]
      split <;> omega
  | _ =>
      rw [hpc] at hwithin
      simp only [PopperPc.Within, PopperPc.taken] at hwithin ⊢
      omega

/-- Every step of the producer counts. -/
theorem TransferInv.taken_producer (h : TransferInv N s) (hs : s.step N .producer = some s') :
    s'.pusher.taken N = s.pusher.taken N + 1 ∧ s'.popper = s.popper ∧ s'.misses = s.misses := by
  have hwithin := h.pusher
  simp only [Transfer.step] at hs
  cases hpc : s.pusher with
  | arrive =>
      rw [hpc] at hs
      obtain rfl := Option.some.inj hs
      exact ⟨rfl, rfl, rfl⟩
  | wait =>
      rw [hpc] at hs
      simp only [Transfer.pusherStep] at hs
      split at hs
      · obtain rfl := Option.some.inj hs
        exact ⟨rfl, rfl, rfl⟩
      · cases hs
  | loop i =>
      rw [hpc] at hs hwithin
      obtain rfl := Option.some.inj hs
      have hle : i ≤ N := hwithin
      refine ⟨?_, rfl, rfl⟩
      split
      · rfl
      · simp only [PusherPc.taken]
        omega
  | lock i =>
      rw [hpc] at hs
      simp only [Transfer.pusherStep] at hs
      split at hs
      · obtain rfl := Option.some.inj hs
        exact ⟨rfl, rfl, rfl⟩
      · cases hs
  | push i | unlock i =>
      rw [hpc] at hs
      obtain rfl := Option.some.inj hs
      exact ⟨rfl, rfl, rfl⟩
  | returned => rw [hpc] at hs; cases hs

/-- Every step of the consumer counts, and four of them do not when `Pop` has found nothing. -/
theorem TransferInv.taken_consumer (h : TransferInv N s) (hs : s.step N .consumer = some s') :
    s'.popper.taken N + 4 * s'.misses = s.popper.taken N + 4 * s.misses + 1 ∧
      s'.pusher = s.pusher := by
  have hwithin := h.popper
  have hlen := h.length_eq
  simp only [Transfer.step] at hs
  cases hpc : s.popper with
  | arrive =>
      rw [hpc] at hs
      obtain rfl := Option.some.inj hs
      refine ⟨?_, rfl⟩
      simp only [PopperPc.taken]
      omega
  | wait =>
      rw [hpc] at hs
      simp only [Transfer.popperStep] at hs
      split at hs
      · obtain rfl := Option.some.inj hs
        refine ⟨?_, rfl⟩
        simp only [PopperPc.taken]
        omega
      · cases hs
  | loop c =>
      rw [hpc] at hs hwithin
      obtain rfl := Option.some.inj hs
      have hc : s.popped.length = c := hwithin
      refine ⟨?_, rfl⟩
      split <;> simp only [PopperPc.taken] <;> omega
  | lock c =>
      rw [hpc] at hs
      simp only [Transfer.popperStep] at hs
      split at hs
      · obtain rfl := Option.some.inj hs
        refine ⟨?_, rfl⟩
        simp only [PopperPc.taken]
        omega
      · cases hs
  | pop c =>
      rw [hpc] at hs
      simp only [Transfer.popperStep] at hs
      split at hs <;> obtain rfl := Option.some.inj hs <;> refine ⟨?_, rfl⟩ <;>
        simp [PopperPc.taken] <;> omega
  | unlock c hit =>
      rw [hpc] at hs
      obtain rfl := Option.some.inj hs
      refine ⟨?_, rfl⟩
      cases hit <;> simp [PopperPc.taken] <;> omega
  | returned => rw [hpc] at hs; cases hs

/-- **The length of a run** is read off its last state. -/
theorem run_taken {as : List Side} : ∀ {s : Transfer}, TransferInv N s →
    run (Transfer.step N) s as = some s' →
    s'.pusher.taken N + s'.popper.taken N + 4 * s'.misses =
      s.pusher.taken N + s.popper.taken N + 4 * s.misses + as.length := by
  induction as with
  | nil =>
      intro s _ hrun
      obtain rfl : s = s' := Option.some.inj hrun
      rfl
  | cons a as ih =>
      intro s h hrun
      obtain ⟨s₁, hs, hrest⟩ := Option.bind_eq_some_iff.mp hrun
      have hlater := ih (h.step hs) hrest
      rw [List.length_cons]
      cases a with
      | producer =>
          obtain ⟨h1, h2, h3⟩ := h.taken_producer hs
          rw [h1, h2, h3] at hlater
          omega
      | consumer =>
          obtain ⟨h1, h2⟩ := h.taken_consumer hs
          rw [h2] at hlater
          omega

/-- What the consumer still has to do before it does not hold up the producer. -/
def PopperPc.holdsUp : PopperPc → ℕ
  | .arrive => 1
  | .pop _ => 2
  | .unlock _ _ => 1
  | _ => 0

/-- **The way to the end**: the producer first, then the consumer. -/
def Transfer.left (N : ℕ) (s : Transfer) : ℕ :=
  (4 * N + 8) * (4 * N + 3 - s.pusher.taken N) +
    if s.pusher = .returned then 4 * N + 4 - s.popper.taken N else s.popper.holdsUp

/-- A step of the producer is one on this way. -/
theorem TransferInv.left_producer (h : TransferInv N s) (hs : s.step N .producer = some s') :
    s'.left N < s.left N := by
  obtain ⟨htaken, hpopper, -⟩ := h.taken_producer hs
  have hle := (h.step hs).pusher_taken
  have hsmall : (if s'.pusher = .returned then 4 * N + 4 - s'.popper.taken N
      else s'.popper.holdsUp) ≤ 4 * N + 4 := by
    split
    · omega
    · cases s'.popper <;> simp [PopperPc.holdsUp]
  have hone : 4 * N + 3 - s.pusher.taken N = (4 * N + 3 - s'.pusher.taken N) + 1 := by omega
  unfold Transfer.left
  rw [hone, Nat.mul_succ]
  omega

/-- A step of the consumer that the producer waits for is one as well. -/
theorem TransferInv.left_holdsUp (h : TransferInv N s) (hne : s.pusher ≠ .returned)
    (hs : s.step N .consumer = some s') (hless : s'.popper.holdsUp < s.popper.holdsUp) :
    s'.left N < s.left N := by
  obtain ⟨-, hpusher⟩ := h.taken_consumer hs
  unfold Transfer.left
  rw [hpusher, if_neg hne, if_neg hne]
  omega

/-- The mutex is free where neither thread is inside. -/
theorem TransferInv.free (h : TransferInv N s) (hpusher : s.pusher.inside = false)
    (hpopper : s.popper.inside = false) : s.mtx = none := by
  have hp := h.pushing
  have hc := h.popping
  rw [hpusher] at hp
  rw [hpopper] at hc
  cases hm : s.mtx with
  | none => rfl
  | some side =>
      cases side with
      | producer => exact absurd (hp.mp hm) Bool.false_ne_true
      | consumer => exact absurd (hc.mp hm) Bool.false_ne_true

/-- **After the producer has returned** the consumer can go on, and misses nothing. -/
theorem TransferInv.consumer_goes_on (h : TransferInv N s) (hr : s.pusher = .returned)
    (hne : s.popper ≠ .returned) :
    ∃ s', s.step N .consumer = some s' ∧ s'.misses = s.misses := by
  have hout : s.pusher.inside = false := by rw [hr]; rfl
  unfold Transfer.step
  cases hpc : s.popper with
  | arrive | loop c | unlock c hit => exact ⟨_, rfl, rfl⟩
  | wait =>
      have hlatch : s.latch = 0 := by rw [h.latch, hr, hpc]; rfl
      exact ⟨_, if_pos hlatch, rfl⟩
  | lock c =>
      have hfree := h.free hout (by rw [hpc]; rfl)
      simp only [Transfer.popperStep, hfree]
      exact ⟨_, rfl, rfl⟩
  | pop c =>
      have hwithin := h.popper
      rw [hpc] at hwithin
      obtain ⟨hlen, hc⟩ := hwithin
      have hall := h.length_eq
      rw [hr] at hall
      have hall : s.popped.length + s.stack.stack.length + (N - N) = N := hall
      cases hst : s.stack with
      | mk stack =>
          cases stack with
          | nil =>
              rw [hst, List.length_nil] at hall
              omega
          | cons value rest =>
              simp only [Transfer.popperStep, hst, SPSCStack.pop]
              exact ⟨_, rfl, rfl⟩
  | returned => exact absurd hpc hne

/-- **Before that** the producer can go on, or the consumer holds it up. -/
theorem TransferInv.producer_goes_on (h : TransferInv N s) (hne : s.pusher ≠ .returned) :
    ∃ a s', s.step N a = some s' ∧ s'.left N < s.left N := by
  have hproducer : ∀ s', s.step N .producer = some s' →
      ∃ a s', s.step N a = some s' ∧ s'.left N < s.left N :=
    fun s' hs => ⟨.producer, s', hs, h.left_producer hs⟩
  cases hin : s.popper.inside with
  | true =>
      cases hpc : s.popper with
      | pop c =>
          obtain ⟨s', hs, hless⟩ : ∃ s', s.step N .consumer = some s' ∧
              s'.popper.holdsUp < s.popper.holdsUp := by
            simp only [Transfer.step, hpc, Transfer.popperStep]
            split <;> exact ⟨_, rfl, Nat.lt_succ_self 1⟩
          exact ⟨.consumer, s', hs, h.left_holdsUp hne hs hless⟩
      | unlock c hit =>
          have hs : s.step N .consumer = some { s with
              mtx := none, popper := .loop (if hit then c + 1 else c) } := by
            simp only [Transfer.step, hpc, Transfer.popperStep]
          exact ⟨.consumer, _, hs, h.left_holdsUp hne hs (by rw [hpc]; exact Nat.zero_lt_one)⟩
      | _ => rw [hpc] at hin; cases hin
  | false =>
      cases hpc : s.pusher with
      | arrive | loop i | push i | unlock i =>
          exact hproducer _ (by simp only [Transfer.step, hpc, Transfer.pusherStep]; rfl)
      | wait =>
          by_cases hlatch : s.latch = 0
          · exact hproducer _ (by
              simp only [Transfer.step, hpc, Transfer.pusherStep, if_pos hlatch]; rfl)
          · -- The latch is not down, so the consumer has not arrived.
            have harrive : s.popper = .arrive := by
              have hsum := h.latch
              rw [hpc] at hsum
              cases hq : s.popper with
              | arrive => rfl
              | _ => rw [hq] at hsum; exact absurd hsum hlatch
            have hs : s.step N .consumer = some { s with
                latch := s.latch - 1, popper := .wait } := by
              simp only [Transfer.step, harrive, Transfer.popperStep]
            exact ⟨.consumer, _, hs,
              h.left_holdsUp hne hs (by rw [harrive]; exact Nat.zero_lt_one)⟩
      | lock i =>
          have hfree := h.free (by rw [hpc]; rfl) hin
          exact hproducer _ (by simp only [Transfer.step, hpc, Transfer.pusherStep, hfree]; rfl)
      | returned => exact absurd hpc hne

theorem TransferInv.exists_step (h : TransferInv N s) (hend : ¬ s.Finished) :
    ∃ a s', s.step N a = some s' ∧ s'.left N < s.left N := by
  by_cases hr : s.pusher = .returned
  · obtain ⟨s', hs, hmisses⟩ := h.consumer_goes_on hr fun e => hend ⟨hr, e⟩
    obtain ⟨htaken, hpusher⟩ := h.taken_consumer hs
    have hle := (h.step hs).popper_taken
    refine ⟨.consumer, s', hs, ?_⟩
    unfold Transfer.left
    rw [hpusher, if_pos hr, if_pos hr]
    omega
  · exact h.producer_goes_on hr

end Returns

/-- **`main` returns**: a run has at most `8 * N + 6` steps and four for each pop that found
    nothing, and from every state that `main` can be in the two threads can still return. -/
theorem transfer_returns (N : ℕ) :
    (∀ as s, run (Transfer.step N) .start as = some s →
      as.length ≤ 8 * N + 6 + 4 * s.misses) ∧
    ∀ s, Reach (Transfer.step N) .start s →
      ∃ s', Reach (Transfer.step N) s s' ∧ s'.Finished := by
  refine ⟨fun as s hrun => ?_, fun s hs => ?_⟩
  · have h := transferInv_reach (reach_run hrun)
    have hpusher := h.pusher_taken
    have hpopper := h.popper_taken
    have htaken := run_taken (transferInv_start N) hrun
    have hstart : Transfer.start.pusher.taken N + Transfer.start.popper.taken N +
        4 * Transfer.start.misses = 0 := rfl
    rw [hstart] at htaken
    omega
  · obtain ⟨as, s', hrun, -, -, hfin⟩ := exists_run_of_measure
      (I := TransferInv N) (c := fun _ => True) (P := Transfer.Finished) (Transfer.left N)
      (fun s hI hend => by
        obtain ⟨a, s', hs, hless⟩ := hI.exists_step hend
        exact ⟨a, s', trivial, hs, hI.step hs, hless⟩)
      (Nat.le_refl _) (transferInv_reach hs)
    exact ⟨s', reach_run hrun, hfin⟩

end HseMultithreading.LockFree
