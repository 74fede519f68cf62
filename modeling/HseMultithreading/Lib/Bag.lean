/-
  File:      HseMultithreading/Lib/Bag.lean
  Subject:   The bag of values held by finitely many cells, each of which may be vacant.

  `bagOf f` is the multiset of the values `x` with `f i = some x`, one for each cell `i`. A cell
  that fills adds its value, a cell that is vacated removes it, and everything else leaves the bag
  as it is: the only facts an exactly-once argument needs.
-/
import Mathlib.Algebra.BigOperators.Group.Finset.Basic
import Mathlib.Algebra.Order.Group.Multiset
import Mathlib.Data.Fintype.BigOperators

namespace Bag

variable {ι β γ : Type*} [Fintype ι]

/-- The bag of one cell. -/
def cellBag : Option β → Multiset β
  | none => 0
  | some x => {x}

/-- The values of the cells that hold one. -/
def bagOf (f : ι → Option β) : Multiset β := ∑ i, cellBag (f i)

theorem bagOf_none : bagOf (fun _ : ι => (none : Option β)) = 0 :=
  Finset.sum_eq_zero fun _ _ => rfl

/-- **A sum that grows at one place**: `g` differs from `f` at `i` only, by `d`. -/
theorem sum_add_at {κ M : Type*} [AddCommMonoid M] {S : Finset κ} {f g : κ → M} {i : κ} {d : M}
    (hi : i ∈ S) (h : ∀ j, j ≠ i → g j = f j) (hd : g i = f i + d) :
    ∑ j ∈ S, g j = ∑ j ∈ S, f j + d := by
  classical
  have hrest : ∑ j ∈ S.erase i, g j = ∑ j ∈ S.erase i, f j :=
    Finset.sum_congr rfl fun j hj => h j (Finset.ne_of_mem_erase hj)
  rw [← Finset.sum_erase_add _ g hi, ← Finset.sum_erase_add _ f hi, hrest, hd, add_assoc]

/-- **A cell fills**: `g` differs from `f` in cell `i` only, vacant in `f`. -/
theorem bagOf_fill {f g : ι → Option β} {i : ι} {x : β} (h : ∀ j, j ≠ i → g j = f j)
    (hf : f i = none) (hg : g i = some x) : bagOf g = bagOf f + {x} := by
  refine sum_add_at (Finset.mem_univ i) (fun j hj => by rw [h j hj]) ?_
  rw [hf, hg]
  exact (zero_add _).symm

section Marks

-- What a thread at place `p` has is `mark p`; thread `t` moves to `new`.
variable {π : Type*} [DecidableEq ι] {mark : π → Option β} {places : ι → π} {t : ι} {new : π}
  {x : β}

theorem bagOf_stay (h : mark new = mark (places t)) :
    bagOf (fun u => mark (Function.update places t new u)) = bagOf fun u => mark (places u) := by
  congr 1
  funext u
  by_cases e : u = t
  · rw [e, Function.update_self, h]
  · rw [Function.update_of_ne e]

theorem bagOf_enter (hold : mark (places t) = none) (hnew : mark new = some x) :
    bagOf (fun u => mark (Function.update places t new u)) =
      bagOf (fun u => mark (places u)) + {x} :=
  bagOf_fill (i := t) (fun u hu => by rw [Function.update_of_ne hu]) hold
    (by rw [Function.update_self, hnew])

theorem bagOf_leave (hold : mark (places t) = some x) (hnew : mark new = none) :
    bagOf (fun u => mark (places u)) =
      bagOf (fun u => mark (Function.update places t new u)) + {x} :=
  bagOf_fill (i := t) (fun u hu => by rw [Function.update_of_ne hu])
    (by rw [Function.update_self, hnew]) hold

end Marks

/-- A value that goes from a bag to the end of a list. -/
theorem coe_concat_add (l : List β) (x : β) (m : Multiset β) :
    (↑(l ++ [x]) : Multiset β) + m = ↑l + (m + {x}) := by
  rw [← Multiset.coe_add, Multiset.coe_singleton, add_assoc, add_comm m]

theorem bagOf_map (f : ι → Option β) (φ : β → γ) :
    (bagOf f).map φ = bagOf fun i => (f i).map φ := by
  unfold bagOf
  rw [← Multiset.coe_mapAddMonoidHom, map_sum]
  refine Finset.sum_congr rfl fun i _ => ?_
  show (cellBag (f i)).map φ = cellBag ((f i).map φ)
  cases f i with
  | none => rfl
  | some x => exact Multiset.map_singleton φ x

/-- As many values as cells that hold one. -/
theorem card_bagOf (f : ι → Option β) :
    (bagOf f).card = (Finset.univ.filter fun i => (f i).isSome).card := by
  unfold bagOf
  rw [Multiset.card_sum, Finset.card_filter]
  refine Finset.sum_congr rfl fun i _ => ?_
  cases f i <;> rfl

theorem mem_bagOf {f : ι → Option β} {x : β} : x ∈ bagOf f ↔ ∃ i, f i = some x := by
  unfold bagOf
  rw [Multiset.mem_sum]
  constructor
  · intro ⟨i, _, hi⟩
    cases h : f i with
    | none => rw [h] at hi; exact absurd hi (Multiset.notMem_zero x)
    | some y => rw [h] at hi; exact ⟨i, by rw [h, Multiset.mem_singleton.mp hi]⟩
  · intro ⟨i, hi⟩
    exact ⟨i, Finset.mem_univ i, by rw [hi]; exact Multiset.mem_singleton_self x⟩

end Bag
