/-
  File:      HseMultithreading/Lib/Amortized.lean
  Subject:   How long a run can be when its steps are paid for.

  * `length_le_of_credit` -- a potential that goes down with every step, up to a credit that the
    action brings along, bounds the length of a run by the credits of its actions;
  * `sum_move` -- the potential of many threads as a sum: one thread moves, every other one may
    lose up to `d`; `sum_pay` -- the step is paid for if that thread pays for all of it;
  * `sum_credit_le` -- the credits of a run with two kinds of actions that bring some.
-/
import Mathlib.Algebra.BigOperators.Group.Finset.Basic
import Mathlib.Algebra.GroupWithZero.Nat
import Mathlib.Algebra.Order.BigOperators.Group.Finset
import HseMultithreading.Lib.Run

namespace Amortized

open StepSystem Finset

variable {σ α ι : Type*}

/-- **The rule of credits.** -/
theorem length_le_of_credit {step : σ → α → Option σ} {C : α → Prop} (φ : σ → ℕ) (credit : α → ℕ)
    (h : ∀ s a s', C a → step s a = some s' → φ s' + 1 ≤ φ s + credit a) {as : List α} {s' : σ} :
    ∀ {s}, run step s as = some s' → (∀ a ∈ as, C a) →
      φ s' + as.length ≤ φ s + (as.map credit).sum := by
  induction as with
  | nil =>
      intro s hrun _
      obtain rfl : s = s' := Option.some.inj hrun
      exact Nat.le_refl _
  | cons a as ih =>
      intro s hrun hC
      obtain ⟨t, ht, hrest⟩ := Option.bind_eq_some_iff.mp hrun
      have hstep := h s a t (hC a List.mem_cons_self) ht
      have hrun' := ih hrest fun b hb => hC b (List.mem_cons_of_mem a hb)
      rw [List.length_cons, List.map_cons, List.sum_cons]
      omega

/-- One summand moves from `f t` to `g t`, and every other one grows by at most `d`. -/
theorem sum_move [DecidableEq ι] {ts : Finset ι} {f g : ι → ℕ} {t : ι} {d : ℕ} (ht : t ∈ ts)
    (h : ∀ u ∈ ts, u ≠ t → g u ≤ f u + d) :
    ∑ u ∈ ts, g u + f t + d ≤ ∑ u ∈ ts, f u + g t + ts.card * d := by
  have hrest : ∑ u ∈ ts.erase t, g u ≤ ∑ u ∈ ts.erase t, f u + (ts.erase t).card * d := by
    calc ∑ u ∈ ts.erase t, g u ≤ ∑ u ∈ ts.erase t, (f u + d) :=
          sum_le_sum fun u hu => h u (mem_of_mem_erase hu) (ne_of_mem_erase hu)
      _ = ∑ u ∈ ts.erase t, f u + (ts.erase t).card * d := by
          rw [sum_add_distrib, sum_const_nat fun _ _ => rfl]
  have hcard : (ts.erase t).card * d + d = ts.card * d := by
    rw [← card_erase_add_one ht, Nat.add_mul, Nat.one_mul]
  have hg := add_sum_erase ts g ht
  have hf := add_sum_erase ts f ht
  omega

/-- The thread that moves pays for its step and for what the others lose by it. -/
theorem sum_pay [DecidableEq ι] {ts : Finset ι} {f g : ι → ℕ} {t : ι} {d c : ℕ} (ht : t ∈ ts)
    (h : ∀ u ∈ ts, u ≠ t → g u ≤ f u + d) (hown : g t + ts.card * d + 1 ≤ f t + d + c) :
    ∑ u ∈ ts, g u + 1 ≤ ∑ u ∈ ts, f u + c := by
  have := sum_move ht h
  omega

theorem sum_credit_le (p q : α → Bool) (x y : ℕ) (as : List α) :
    (as.map fun a => if p a then x else if q a then y else 0).sum ≤
      x * as.countP p + y * as.countP q := by
  induction as with
  | nil => exact Nat.zero_le _
  | cons a as ih =>
      rw [List.map_cons, List.sum_cons, List.countP_cons, List.countP_cons, Nat.mul_add,
        Nat.mul_add]
      cases p a <;> cases q a <;> simp <;> omega

end Amortized
