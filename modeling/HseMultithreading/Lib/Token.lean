/-
  File:      HseMultithreading/Lib/Token.lean
  Subject:   A token that at most one thread has, the set of threads at a marked place, and a
             counter that the threads pay into.

  * `Token holds threads o` -- the threads that stand at a place with `holds` are exactly the one
    named by `o`. A step of one thread passes the token on in one of three ways (`Pass`); `o` may
    be a word of the program (the owner of a mutex) or known to the proof only.
  * `Marked mark threads S` -- the threads at a place with `mark` are those of the finite set `S`;
    a step of one thread leaves `S`, adds the thread to it or takes it out.
  * `Counted due S x total` -- what has been paid and what is still due make up `total`.
  * `active_update`, `left_of_step` -- threads that go round a loop, and the rounds they have left.
-/
import HseMultithreading.Lib.Bag

namespace TokenRule

variable {ι π : Type*}

/-- **The token**: thread `t` has it iff it stands at a place with `holds`. -/
def Token (holds : π → Bool) (threads : ι → π) (o : Option ι) : Prop :=
  ∀ t, holds (threads t) = true ↔ o = some t

/-- What a step of thread `t` from place `old` to place `new` does to the token. -/
inductive Pass (holds : π → Bool) (t : ι) (old new : π) : Option ι → Option ι → Prop where
  | keep (o : Option ι) (h : holds new = holds old) : Pass holds t old new o o
  | take (h : holds new = true) : Pass holds t old new none (some t)
  | drop (h : holds new = false) : Pass holds t old new (some t) none

section Rules

variable {holds : π → Bool} {threads : ι → π} {o o' : Option ι} {t t' : ι}

theorem Token.unique (h : Token holds threads o) (ht : holds (threads t) = true)
    (ht' : holds (threads t') = true) : t = t' :=
  Option.some.inj (((h t).mp ht).symm.trans ((h t').mp ht'))

/-- **A step passes the token.** -/
theorem Token.pass [DecidableEq ι] (h : Token holds threads o) {new : π}
    (hp : Pass holds t (threads t) new o o') : Token holds (Function.update threads t new) o' := by
  intro t'
  by_cases e : t' = t
  · subst e
    rw [Function.update_self]
    cases hp with
    | keep _ hsame => rw [hsame]; exact h t'
    | take hnew => exact ⟨fun _ => rfl, fun _ => hnew⟩
    | drop hnew => rw [hnew]; exact ⟨fun e => (by cases e), fun e => (by cases e)⟩
  · rw [Function.update_of_ne e, h t']
    cases hp with
    | keep => exact Iff.rfl
    | take => exact ⟨fun e' => (by cases e'), fun e' => absurd (Option.some.inj e').symm e⟩
    | drop => exact ⟨fun e' => absurd (Option.some.inj e').symm e, fun e' => (by cases e')⟩

end Rules

/-- **The marked threads**: thread `t` is in `S` iff it stands at a place with `mark`. -/
def Marked (mark : π → Bool) (threads : ι → π) (S : Finset ι) : Prop :=
  ∀ t, t ∈ S ↔ mark (threads t) = true

section Marking

variable {mark : π → Bool} {threads : ι → π} {S : Finset ι} {t : ι} {new : π}

theorem Marked.start (h : ∀ t, mark (threads t) = false) : Marked mark threads ∅ := fun t =>
  iff_of_false (Finset.notMem_empty t) (by rw [h t]; exact Bool.false_ne_true)

theorem Marked.eq_empty (h : Marked mark threads S) (h0 : ∀ t, mark (threads t) = false) :
    S = ∅ := by
  refine Finset.eq_empty_of_forall_notMem fun t ht => ?_
  have := (h t).mp ht
  rw [h0 t] at this
  cases this

variable [DecidableEq ι]

theorem Marked.stay (h : Marked mark threads S) (hnew : mark new = mark (threads t)) :
    Marked mark (Function.update threads t new) S := by
  intro t'
  by_cases e : t' = t
  · rw [e, Function.update_self, hnew]
    exact h t
  · rw [Function.update_of_ne e]
    exact h t'

theorem Marked.enter (h : Marked mark threads S) (new : π) (hold : mark (threads t) = false)
    (hnew : mark new = true) :
    Marked mark (Function.update threads t new) (insert t S) ∧
      (insert t S).card = S.card + 1 := by
  have ht : t ∉ S := fun hm => by
    have := (h t).mp hm
    rw [hold] at this
    cases this
  refine ⟨fun t' => ?_, Finset.card_insert_of_notMem ht⟩
  by_cases e : t' = t
  · rw [e, Function.update_self]
    exact iff_of_true (Finset.mem_insert_self t S) hnew
  · rw [Function.update_of_ne e, Finset.mem_insert, or_iff_right e]
    exact h t'

theorem Marked.leave (h : Marked mark threads S) (new : π) (hold : mark (threads t) = true)
    (hnew : mark new = false) :
    Marked mark (Function.update threads t new) (S.erase t) ∧
      (S.erase t).card + 1 = S.card := by
  refine ⟨fun t' => ?_, Finset.card_erase_add_one ((h t).mpr hold)⟩
  by_cases e : t' = t
  · rw [e, Function.update_self, hnew]
    exact iff_of_false (Finset.notMem_erase t S) Bool.false_ne_true
  · rw [Function.update_of_ne e, Finset.mem_erase, and_iff_right e]
    exact h t'

end Marking

/-- **The counter**: what is paid and what is due are `total`. -/
def Counted (due : ι → ℕ) (S : Finset ι) (x total : ℕ) : Prop := x + ∑ t ∈ S, due t = total

section Counter

variable {due due' : ι → ℕ} {S : Finset ι} {x total : ℕ} {t : ι}

/-- Thread `t` moves and pays nothing. -/
theorem Counted.stay (h : Counted due S x total) (he : ∀ t', t' ≠ t → due' t' = due t')
    (hd : due' t = due t) : Counted due' S x total := by
  have hsame : due' = due := by
    funext t'
    by_cases e : t' = t
    · rw [e]
      exact hd
    · exact he t' e
  rw [hsame]
  exact h

/-- Thread `t` pays one. -/
theorem Counted.pay (h : Counted due S x total) (ht : t ∈ S) (he : ∀ t', t' ≠ t → due' t' = due t')
    (hd : due t = due' t + 1) : Counted due' S (x + 1) total := by
  unfold Counted at h ⊢
  rw [Bag.sum_add_at ht (fun t' hne => (he t' hne).symm) hd] at h
  omega

/-- No more than the total is ever paid. -/
theorem Counted.le (h : Counted due S x total) : x ≤ total := by
  unfold Counted at h
  omega

/-- When nothing is due, the total has been paid. -/
theorem Counted.paid (h : Counted due S x total) (h0 : ∀ t ∈ S, due t = 0) : x = total := by
  unfold Counted at h
  rw [Finset.sum_eq_zero h0] at h
  exact h

end Counter

section Rounds

-- Thread `t` has `left t` rounds of its loop to go, the one it is in included.
variable {left left' : ι → ℕ} {t : ι} (hleft : ∀ t', t' ≠ t → left' t' = left t')
include hleft

/-- A thread away from `idle` has a round left. -/
theorem active_update [DecidableEq ι] {idle new : π} {threads threads' : ι → π}
    (h : ∀ t', threads t' ≠ idle → left t' ≠ 0) (hthr : threads' = Function.update threads t new)
    (hnew : new ≠ idle → left' t ≠ 0) : ∀ t', threads' t' ≠ idle → left' t' ≠ 0 := by
  rw [hthr, Function.forall_update_iff threads fun t' pc => pc ≠ idle → left' t' ≠ 0]
  refine ⟨hnew, fun t' e => ?_⟩
  rw [hleft t' e]
  exact h t'

/-- What holds of every thread with a round left still does, as no round is added. -/
theorem left_of_step {P : ι → Prop} (h : ∀ t', left t' ≠ 0 → P t') (hless : left' t ≤ left t)
    (t' : ι) (ht' : left' t' ≠ 0) : P t' := by
  refine h t' fun h0 => ht' ?_
  by_cases e : t' = t
  · rw [e] at h0 ⊢
    exact Nat.eq_zero_of_le_zero (h0 ▸ hless)
  · rw [hleft t' e]
    exact h0

end Rounds

end TokenRule
