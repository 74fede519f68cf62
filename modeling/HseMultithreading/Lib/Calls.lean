/-
  File:      HseMultithreading/Lib/Calls.lean
  Subject:   Calls that run one after the other, and objects that answer alike.

  * `solo` -- a call in progress runs alone, step by step, until it returns. Some of its steps may
    fail for no reason; `flags` says which of the first ones do.
  * `alone_update`, `idle_of_alone` -- where the other threads are meanwhile: outside of any call.
  * `solo_of_measure` -- a measure that every step decreases bounds the number of steps; what every
    step keeps holds when the call has returned.
  * `answers` -- what an object answers to a list of calls, and `answers_eq`: an object whose calls
    return, and return what another object answers, answers alike.
-/
import Mathlib.Logic.Function.Basic
import Mathlib.Tactic.Common

namespace CallRule

/-! ## 1. A call that runs alone -/

section Solo

variable {σ π : Type*} (pc : σ → Option π) (advance : σ → Bool → π → σ)

/-- Run a call alone, for at most `fuel` steps. Where `pc` is `none`, the call has returned. -/
def solo : ℕ → List Bool → σ → Option σ
  | 0, _, s =>
    match pc s with
    | none => some s
    | some _ => none
  | fuel + 1, flags, s =>
    match pc s with
    | none => some s
    | some p => solo fuel flags.tail (advance s (flags.headD false) p)

/-- Thread `t` is the only one inside a call, and stays the only one when it moves on. -/
theorem alone_update {ι : Type*} [DecidableEq ι] {threads threads' : ι → Option π} {t : ι}
    {new : Option π} (hothers : ∀ t', t' ≠ t → threads t' = none)
    (h : threads' = Function.update threads t new) :
    threads' t = new ∧ ∀ t', t' ≠ t → threads' t' = none := by
  rw [h]
  refine ⟨Function.update_self _ _ _, fun t' ht => ?_⟩
  rw [Function.update_of_ne ht]
  exact hothers t' ht

/-- Once the only call has returned, there is none. -/
theorem idle_of_alone {ι : Type*} {threads : ι → Option π} {t : ι}
    (hothers : ∀ t', t' ≠ t → threads t' = none) (h : threads t = none) (t' : ι) :
    threads t' = none := by
  by_cases e : t' = t
  · rw [e]
    exact h
  · exact hothers t' e

/-- **The rule for a call that runs alone.** -/
theorem solo_of_measure {I : σ → Prop} (m : π → List Bool → ℕ)
    (hstep : ∀ s p flags, I s → pc s = some p →
      I (advance s (flags.headD false) p) ∧
        ∀ p', pc (advance s (flags.headD false) p) = some p' → m p' flags.tail < m p flags)
    {fuel : ℕ} : ∀ {flags : List Bool} {s : σ}, I s → (∀ p, pc s = some p → m p flags < fuel) →
      ∃ s', solo pc advance fuel flags s = some s' ∧ I s' ∧ pc s' = none := by
  induction fuel with
  | zero =>
      intro flags s hI hm
      cases hp : pc s with
      | none => exact ⟨s, by rw [solo, hp], hI, hp⟩
      | some p => exact absurd (hm p hp) (Nat.not_lt_zero _)
  | succ fuel ih =>
      intro flags s hI hm
      cases hp : pc s with
      | none => exact ⟨s, by rw [solo, hp], hI, hp⟩
      | some p =>
          obtain ⟨hI', hless⟩ := hstep s p flags hI hp
          have hfuel := hm p hp
          have hrest : ∀ p', pc (advance s (flags.headD false) p) = some p' →
              m p' flags.tail < fuel :=
            fun p' hp' => Nat.lt_of_lt_of_le (hless p' hp') (Nat.le_of_lt_succ hfuel)
          obtain ⟨s', hs', hend⟩ := ih hI' hrest
          refine ⟨s', ?_, hend⟩
          rw [solo, hp]
          exact hs'

end Solo

/-! ## 2. Objects that answer alike -/

section Answers

variable {σ τ γ δ β : Type*}

/-- The answers to a list of calls; `none` when a call does not return. -/
def answers (call : σ → γ → Option (σ × β)) : σ → List γ → Option (List β)
  | _, [] => some []
  | s, c :: cs => (call s c).bind fun r => (answers call r.1 cs).map (r.2 :: ·)

/-- The answers of an object whose calls always return. -/
def totalAnswers (call : τ → δ → τ × β) : τ → List δ → List β
  | _, [] => []
  | s, c :: cs => (call s c).2 :: totalAnswers call (call s c).1 cs

/-- **An object that simulates another answers alike**: `R` relates their states, and `f` says what
    a call is for the other object. -/
theorem answers_eq {call : σ → γ → Option (σ × β)} {ref : τ → δ → τ × β} {f : γ → δ}
    {R : σ → τ → Prop} {cs : List γ}
    (hcall : ∀ c ∈ cs, ∀ s q, R s q →
      ∃ s', call s c = some (s', (ref q (f c)).2) ∧ R s' (ref q (f c)).1) :
    ∀ {s q}, R s q → answers call s cs = some (totalAnswers ref q (cs.map f)) := by
  induction cs with
  | nil => exact fun _ => rfl
  | cons c cs ih =>
      intro s q hR
      obtain ⟨s', hs', hR'⟩ := hcall c List.mem_cons_self s q hR
      rw [answers, hs', Option.bind_some,
        ih (fun c' hc' => hcall c' (List.mem_cons_of_mem c hc')) hR']
      rfl

end Answers

end CallRule
