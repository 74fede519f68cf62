/-
  File:      HseMultithreading/LockFree/Bounds.lean
  Subject:   THE BOUNDS of `BufferedLockFreeSPSCStack`: `m_head` stays between 0 and the capacity,
             and every index computed from an earlier value of it lies in the array, for any
             number of threads.

  The limits are tested on the value of `m_head` loaded before the `compare_exchange_weak`, and
  the index is used after it. Both are safe for one reason: a call goes on with a value it has
  loaded only if it is within the limits (`BufferedPc.Within`), and `m_head` moves only from
  exactly such a value. What other threads do in between does not matter. (`top == Capacity`
  compares as `size_t`, which changes no value between 0 and the capacity.)

  * `BufferedPc.computes`, `BufferedPc.accesses` -- the `int` results and the cell of the next step;
    `advance_head`, `advance_buffer` -- the step uses no others.
  * `HeadInv` -- this, the count of the claims, and the threads between a claim and its access.
  * `head_bounds` -- bounds, count, no overflow of an `int`, indices; and `m_head = 0` once as
    many pushes as pops have returned with success.
-/
import HseMultithreading.Lib.Token
import HseMultithreading.LockFree.Buffered

namespace HseMultithreading.LockFree

open StepSystem TokenRule

/-- A value that an `int` can hold. -/
def IsInt (z : ℤ) : Prop := -2147483648 ≤ z ∧ z ≤ 2147483647

variable {T : Type*}

/-- The results of the `int` arithmetic in the next step of a call: the new value of `m_head`, and
    the index of the pop. -/
def BufferedPc.computes : BufferedPc T → List ℤ
  | .pushCas _ top => [top + 1]
  | .popCas top => [top - 1]
  | .read i => [i]
  | .pushLoad _ | .write _ _ | .popLoad => []

/-- The index at which the next step of a call accesses `m_buffer`. -/
def BufferedPc.accesses : BufferedPc T → List ℤ
  | .write _ top => [top]
  | .read i => [i]
  | .pushLoad _ | .pushCas _ _ | .popLoad | .popCas _ => []

section Advance

variable {capacity : ℕ} {s : Buffered T} {t : ℕ} {spurious : Bool} {pc : BufferedPc T}

/-- `m_head` stays, or it becomes what the step computes. -/
theorem advance_head : (s.advance capacity t spurious pc).head = s.head ∨
    (s.advance capacity t spurious pc).head ∈ pc.computes := by
  cases pc with
  | pushLoad value | popLoad =>
      left
      simp only [Buffered.advance]
      split <;> rfl
  | pushCas value top | popCas top =>
      simp only [Buffered.advance]
      split
      · exact .inr List.mem_cons_self
      · exact .inl rfl
  | write value top | read i => exact .inl rfl

/-- **A step sees and changes the buffer at the index it accesses and nowhere else**: run on a
    buffer that agrees with the one of `s` there, it does the same, writes the same there, and
    leaves every other cell alone. -/
theorem advance_buffer {b : ℤ → T} (h : ∀ i ∈ pc.accesses, b i = s.buffer i) :
    ∃ b', { s with buffer := b }.advance capacity t spurious pc =
        { s.advance capacity t spurious pc with buffer := b' } ∧
      (∀ i ∈ pc.accesses, b' i = (s.advance capacity t spurious pc).buffer i) ∧
      ∀ i, i ∉ pc.accesses → b' i = b i := by
  cases pc with
  | pushLoad value | popLoad | pushCas value top | popCas top =>
      refine ⟨b, ?_, fun i hi => (by cases hi), fun _ _ => rfl⟩
      simp only [Buffered.advance]
      split <;> rfl
  | write value top =>
      refine ⟨Function.update b top value, rfl, fun i hi => ?_, fun i hi => ?_⟩
      · rw [List.mem_singleton.mp hi, Function.update_self]
        exact (Function.update_self top value s.buffer).symm
      · exact Function.update_of_ne (fun e => hi (List.mem_singleton.mpr e)) _ _
  | read i =>
      refine ⟨b, ?_, h, fun _ _ => rfl⟩
      simp only [Buffered.advance, Buffered.leave, h i List.mem_cons_self]

end Advance

/-! ## 1. The invariant -/

/-- What a call carries from an earlier step: a loaded value that has passed the test, or the index
    of the cell it has claimed. -/
def BufferedPc.Within (capacity : ℕ) : BufferedPc T → Prop
  | .pushCas _ top => 0 ≤ top ∧ top < capacity
  | .popCas top => 0 < top ∧ top ≤ capacity
  | .write _ i | .read i => 0 ≤ i ∧ i < capacity
  | .pushLoad _ | .popLoad => True

/-- The thread has claimed a cell and not yet written it. -/
def atWrite : Option (BufferedPc T) → Bool
  | some (.write _ _) => true
  | _ => false

/-- The thread has claimed a cell and not yet read it. -/
def atRead : Option (BufferedPc T) → Bool
  | some (.read _) => true
  | _ => false

/-- **The invariant of any number of threads.** `W` and `R` are the threads between the claim of a
    cell and its access. -/
structure HeadInv (capacity : ℕ) (s : Buffered T) (W R : Finset ℕ) : Prop where
  range : 0 ≤ s.head ∧ s.head ≤ capacity
  count : s.head = s.claimed.length - s.taken
  within : ∀ t pc, s.threads t = some pc → pc.Within capacity
  writers : Marked atWrite s.threads W
  readers : Marked atRead s.threads R
  pushes : s.claimed.length = s.pushed.length + W.card
  pops : s.taken = s.popped.length + R.card

theorem headInv_start [Inhabited T] (capacity : ℕ) :
    HeadInv capacity (.start : Buffered T) ∅ ∅ where
  range := ⟨Int.le_refl 0, Int.natCast_nonneg capacity⟩
  count := rfl
  within _ _ h := nomatch h
  writers := .start fun _ => rfl
  readers := .start fun _ => rfl
  pushes := rfl
  pops := rfl

/-! ## 2. Every step keeps it -/

section Steps

variable {capacity : ℕ} {s s' : Buffered T} {W R : Finset ℕ} {t : ℕ} {new : Option (BufferedPc T)}

theorem HeadInv.within_update (h : HeadInv capacity s W R)
    (hnew : ∀ pc, new = some pc → pc.Within capacity) :
    ∀ t' pc, Function.update s.threads t new t' = some pc → pc.Within capacity := by
  rw [Function.forall_update_iff s.threads fun _ o => ∀ pc, o = some pc → pc.Within capacity]
  exact ⟨hnew, fun t' _ => h.within t'⟩

/-- **Thread `t` moves and claims nothing, accesses nothing.** -/
theorem HeadInv.move (h : HeadInv capacity s W R)
    (hnew : ∀ pc, new = some pc → pc.Within capacity)
    (hw : atWrite new = atWrite (s.threads t)) (hr : atRead new = atRead (s.threads t)) :
    HeadInv capacity { s with threads := Function.update s.threads t new } W R where
  range := h.range
  count := h.count
  within := h.within_update hnew
  writers := h.writers.stay hw
  readers := h.readers.stay hr
  pushes := h.pushes
  pops := h.pops

/-- A push claims the cell at the value it has loaded. -/
theorem HeadInv.claim_push (h : HeadInv capacity s W R) {value : T}
    (hpc : s.threads t = some (.pushCas value s.head)) :
    HeadInv capacity
      { s.goto t (.write value s.head) with
        head := s.head + 1, claimed := s.claimed ++ [value] } (insert t W) R := by
  obtain ⟨h0, hlt⟩ := h.within t _ hpc
  obtain ⟨hW, hcard⟩ := h.writers.enter (some (.write value s.head)) (by rw [hpc]; rfl) rfl
  have hcount := h.count
  have hpushes := h.pushes
  refine ⟨⟨Int.le_add_one h0, hlt⟩, ?_, h.within_update fun pc e => ?_, hW,
    h.readers.stay (by rw [hpc]; rfl), ?_, h.pops⟩
  · simp only [List.length_append, List.length_singleton, Buffered.goto]
    push_cast
    omega
  · rw [← Option.some.inj e]
    exact ⟨h0, hlt⟩
  · simp only [List.length_append, List.length_singleton, Buffered.goto]
    omega

/-- A pop claims the cell below the value it has loaded. -/
theorem HeadInv.claim_pop (h : HeadInv capacity s W R)
    (hpc : s.threads t = some (.popCas s.head)) :
    HeadInv capacity
      { s.goto t (.read (s.head - 1)) with head := s.head - 1, taken := s.taken + 1 } W
      (insert t R) := by
  obtain ⟨h0, hle⟩ := h.within t _ hpc
  obtain ⟨hR, hcard⟩ := h.readers.enter (some (.read (s.head - 1))) (by rw [hpc]; rfl) rfl
  have hcount := h.count
  have hpops := h.pops
  have hcell : 0 ≤ s.head - 1 ∧ s.head - 1 < capacity := by omega
  refine ⟨⟨hcell.1, Int.le_of_lt hcell.2⟩, ?_, h.within_update fun pc e => ?_,
    h.writers.stay (by rw [hpc]; rfl), hR, h.pushes, ?_⟩
  · simp only [Buffered.goto]
    push_cast
    omega
  · rw [← Option.some.inj e]
    exact hcell
  · simp only [Buffered.goto]
    omega

theorem HeadInv.write_cell (h : HeadInv capacity s W R) {value : T} {i : ℤ}
    (hpc : s.threads t = some (.write value i)) :
    HeadInv capacity
      { s.leave t with
        buffer := Function.update s.buffer i value, pushed := s.pushed ++ [value] }
      (W.erase t) R := by
  obtain ⟨hW, hcard⟩ := h.writers.leave none (by rw [hpc]; rfl) rfl
  have hpushes := h.pushes
  refine ⟨h.range, h.count, h.within_update nofun, hW, h.readers.stay (by rw [hpc]; rfl), ?_,
    h.pops⟩
  simp only [List.length_append, List.length_singleton, Buffered.leave]
  omega

theorem HeadInv.read_cell (h : HeadInv capacity s W R) {i : ℤ}
    (hpc : s.threads t = some (.read i)) :
    HeadInv capacity { s.leave t with popped := s.popped ++ [s.buffer i] } W (R.erase t) := by
  obtain ⟨hR, hcard⟩ := h.readers.leave none (by rw [hpc]; rfl) rfl
  have hpops := h.pops
  refine ⟨h.range, h.count, h.within_update nofun, h.writers.stay (by rw [hpc]; rfl), hR,
    h.pushes, ?_⟩
  simp only [List.length_append, List.length_singleton, Buffered.leave]
  omega

/-- **Every step inside a call keeps the invariant.** -/
theorem HeadInv.advance (h : HeadInv capacity s W R) (spurious : Bool) {pc : BufferedPc T}
    (hpc : s.threads t = some pc) :
    ∃ W R, HeadInv capacity (s.advance capacity t spurious pc) W R := by
  obtain ⟨h0, hcap⟩ := h.range
  cases pc with
  | pushLoad value =>
      refine ⟨W, R, ?_⟩
      simp only [Buffered.advance]
      split
      · exact h.move (fun pc e => by cases e) (by rw [hpc]; rfl) (by rw [hpc]; rfl)
      next hne =>
        refine h.move (fun pc e => ?_) (by rw [hpc]; rfl) (by rw [hpc]; rfl)
        rw [← Option.some.inj e]
        exact ⟨h0, lt_of_le_of_ne hcap hne⟩
  | pushCas value top =>
      simp only [Buffered.advance]
      split
      next hsame =>
        obtain ⟨rfl, -⟩ := hsame
        exact ⟨_, R, h.claim_push hpc⟩
      next =>
        exact ⟨W, R, h.move (fun pc e => by rw [← Option.some.inj e]; trivial) (by rw [hpc]; rfl)
          (by rw [hpc]; rfl)⟩
  | write value i => exact ⟨_, R, h.write_cell hpc⟩
  | popLoad =>
      refine ⟨W, R, ?_⟩
      simp only [Buffered.advance]
      split
      · exact h.move (fun pc e => by cases e) (by rw [hpc]; rfl) (by rw [hpc]; rfl)
      next hne =>
        refine h.move (fun pc e => ?_) (by rw [hpc]; rfl) (by rw [hpc]; rfl)
        rw [← Option.some.inj e]
        exact ⟨lt_of_le_of_ne h0 (Ne.symm hne), hcap⟩
  | popCas top =>
      simp only [Buffered.advance]
      split
      next hsame =>
        obtain ⟨rfl, -⟩ := hsame
        exact ⟨W, _, h.claim_pop hpc⟩
      next =>
        exact ⟨W, R, h.move (fun pc e => by rw [← Option.some.inj e]; trivial) (by rw [hpc]; rfl)
          (by rw [hpc]; rfl)⟩
  | read i => exact ⟨W, _, h.read_cell hpc⟩

theorem HeadInv.step (h : HeadInv capacity s W R) {a : BufferedAction T}
    (hs : s.step capacity a = some s') : ∃ W R, HeadInv capacity s' W R := by
  cases a with
  | push t value | pop t =>
      simp only [Buffered.step] at hs
      split at hs
      next hidle =>
        obtain rfl := Option.some.inj hs
        exact ⟨W, R, h.move (fun pc e => by rw [← Option.some.inj e]; trivial)
          (by rw [hidle]; rfl) (by rw [hidle]; rfl)⟩
      next => cases hs
  | advance t spurious =>
      obtain ⟨pc, hpc, rfl⟩ := Option.map_eq_some_iff.mp hs
      exact h.advance spurious hpc

end Steps

/-- The invariant holds in every reachable state. -/
theorem headInv_reach [Inhabited T] {capacity : ℕ} {s : Buffered T}
    (h : Reach (Buffered.step capacity) .start s) : ∃ W R, HeadInv capacity s W R :=
  h.invariant (I := fun s => ∃ W R, HeadInv capacity s W R) ⟨∅, ∅, headInv_start capacity⟩
    fun _ _ _ ⟨_, _, hI⟩ _ hs => hI.step hs

/-! ## 3. Bounds and counting -/

theorem BufferedPc.Within.computes {capacity : ℕ} (hcap : capacity ≤ 2147483647)
    {pc : BufferedPc T} (h : pc.Within capacity) : ∀ z ∈ pc.computes, IsInt z := by
  intro z hz
  unfold IsInt
  cases pc with
  | pushLoad value | write value i | popLoad => cases hz
  | pushCas value top | popCas top | read i =>
      obtain ⟨h0, h1⟩ := h
      rw [List.mem_singleton.mp hz]
      omega

theorem BufferedPc.Within.accesses {capacity : ℕ} {pc : BufferedPc T} (h : pc.Within capacity) :
    ∀ i ∈ pc.accesses, 0 ≤ i ∧ i < capacity := by
  intro i hi
  cases pc with
  | pushLoad value | pushCas value top | popLoad | popCas top => cases hi
  | write value j | read j =>
      rw [List.mem_singleton.mp hi]
      exact h

/-- **Bounds and counting.** For a capacity that an `int` can hold, in every state that any number
    of threads reach: `m_head` is between 0 and the capacity, and it is the number of pushes minus
    the number of pops that have claimed a cell; whatever a thread is about to compute fits an
    `int`, and whatever cell it is about to access is in the array. When nobody is in a call and
    `N` pushes and `N` pops have returned with success, `m_head` is 0. -/
theorem head_bounds [Inhabited T] {capacity : ℕ} (hcap : capacity ≤ 2147483647) {s : Buffered T}
    (h : Reach (Buffered.step capacity) .start s) :
    (0 ≤ s.head ∧ s.head ≤ capacity) ∧ s.head = s.claimed.length - s.taken ∧ IsInt s.head ∧
    (∀ t pc, s.threads t = some pc →
      (∀ z ∈ pc.computes, IsInt z) ∧ ∀ i ∈ pc.accesses, 0 ≤ i ∧ i < capacity) ∧
    (∀ N, (∀ t, s.threads t = none) → s.pushed.length = N → s.popped.length = N →
      s.head = 0) := by
  obtain ⟨W, R, hI⟩ := headInv_reach h
  obtain ⟨h0, h1⟩ := hI.range
  refine ⟨⟨h0, h1⟩, hI.count, ⟨by omega, by omega⟩, fun t pc hpc => ?_, fun N hidle hp hq => ?_⟩
  · exact ⟨(hI.within t pc hpc).computes hcap, (hI.within t pc hpc).accesses⟩
  · have hW := hI.writers.eq_empty fun t => by rw [hidle t]; rfl
    have hR := hI.readers.eq_empty fun t => by rw [hidle t]; rfl
    have hpushes := hI.pushes
    have hpops := hI.pops
    rw [hW, Finset.card_empty] at hpushes
    rw [hR, Finset.card_empty] at hpops
    rw [hI.count]
    omega

/-- Two pushes that have loaded the same value of `m_head`, and a pop: all three have claimed a
    cell and accessed none. -/
def threeClaims : List (BufferedAction ℕ) :=
  [.push 0 7, .push 1 8, .advance 0 false, .advance 1 false, .advance 0 false, .advance 1 false,
    .advance 1 false, .advance 1 false, .pop 2, .advance 2 false, .advance 2 false]

/-- The bounds at that state, for an array of two cells. -/
theorem head_bounds_threeClaims :
    ∃ s : Buffered ℕ, Reach (Buffered.step 2) .start s ∧ s.head = 1 ∧
      (0 ≤ s.head ∧ s.head ≤ (2 : ℕ)) ∧ s.head = s.claimed.length - s.taken ∧ IsInt s.head ∧
      (∀ t pc, s.threads t = some pc →
        (∀ z ∈ pc.computes, IsInt z) ∧ ∀ i ∈ pc.accesses, 0 ≤ i ∧ i < (2 : ℕ)) ∧
      (∀ N, (∀ t, s.threads t = none) → s.pushed.length = N → s.popped.length = N →
        s.head = 0) := by
  obtain ⟨s, hs, hp⟩ := reach_of_run (Buffered.step 2) (fun _ _ => true) .start threeClaims
    (fun s => decide (s.head = 1)) (by decide +kernel)
  exact ⟨s, hs.reach, of_decide_eq_true hp, head_bounds (by decide) hs.reach⟩

end HseMultithreading.LockFree
