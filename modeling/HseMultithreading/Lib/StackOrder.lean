/-
  File:      HseMultithreading/Lib/StackOrder.lean
  Subject:   In which orders a stack can give back what was pushed in a rising order.

  One party pushes the values of `input` in order, another one pops, and they take turns in any way.
  What comes out is a rearrangement of the input, but not every one: of three values, the largest
  cannot come out first and the smallest next, since the middle one lies above the smallest then.

  * `Passing`, `Passing.step` -- the input to come, the stack and the output.
  * `Avoids l` -- nowhere in `l` does a value come before a smaller one that comes before one in
    between.
  * `Passing.Sound` -- the invariant: the output, followed by the stack, avoids it. A pop leaves
    this list as it is; a push puts the largest value in front of a falling stack.
  * **`passes_iff`** -- the orders in which all values come out are exactly the rearrangements that
    avoid it. For the other direction values are pushed only until the next one wanted is there.
-/
import Mathlib.Data.List.Sort
import HseMultithreading.Lib.Run

namespace StackOrder

open StepSystem

variable {α : Type*}

/-- The values to push, the stack, and what has come out. -/
structure Passing (α : Type*) where
  input : List α
  stack : List α
  output : List α

inductive Turn where
  | push
  | pop

def Passing.start (input : List α) : Passing α := ⟨input, [], []⟩

def Passing.step (s : Passing α) : Turn → Option (Passing α)
  | .push =>
    match s.input with
    | [] => none
    | x :: input => some ⟨input, x :: s.stack, s.output⟩
  | .pop =>
    match s.stack with
    | [] => none
    | x :: stack => some ⟨s.input, stack, s.output ++ [x]⟩

variable [LinearOrder α]

/-- No value comes before a smaller one that comes before one in between. -/
def Avoids (l : List α) : Prop := ∀ c a b, [c, a, b].Sublist l → ¬ (a < b ∧ b < c)

/-! ## 1. What comes out -/

/-- **The invariant**, for the values `all`. -/
structure Passing.Sound (all : List α) (s : Passing α) : Prop where
  perm : (s.output ++ s.stack ++ s.input).Perm all
  falling : s.stack.Pairwise (· > ·)
  rising : s.input.Pairwise (· < ·)
  later : ∀ x ∈ s.output ++ s.stack, ∀ y ∈ s.input, x < y
  avoids : Avoids (s.output ++ s.stack)

section Sound

variable {all : List α} {s s' : Passing α} {x y z : α} {l l' : List α}

theorem sound_start (h : all.Pairwise (· < ·)) : (Passing.start all).Sound all where
  perm := .refl _
  falling := .nil
  rising := h
  later _ hx := absurd hx List.not_mem_nil
  avoids c a b hsub := by cases hsub

omit [LinearOrder α] in
/-- Where one of three values can be. -/
theorem triple_split {a b c : α} (e : [c, a, b] = l ++ x :: l') :
    l = [] ∧ x = c ∧ l' = [a, b] ∨ l = [c] ∧ x = a ∧ l' = [b] ∨ l = [c, a] ∧ x = b ∧ l' = [] := by
  rcases l with _ | ⟨p, _ | ⟨q, _ | ⟨w, l⟩⟩⟩ <;> simp at e ⊢
  · exact ⟨e.1.symm, e.2.symm⟩
  · exact ⟨e.1.symm, e.2.1.symm, e.2.2.symm⟩
  · exact ⟨⟨e.1.symm, e.2.1.symm⟩, e.2.2.1.symm, e.2.2.2⟩

/-- **A largest value before a falling list** does no harm. -/
theorem avoids_insert (h : Avoids (l ++ l')) (hx : ∀ y ∈ l ++ l', y < x)
    (hfall : l'.Pairwise (· > ·)) : Avoids (l ++ x :: l') := by
  intro c a b hsub ⟨hab, hbc⟩
  obtain ⟨l₁, l₂, e, h₁, h₂⟩ := List.sublist_append_iff.mp hsub
  rcases List.sublist_cons_iff.mp h₂ with h₂ | ⟨r, rfl, hr⟩
  · -- The new value is not one of the three.
    exact h c a b (e ▸ h₁.append h₂) ⟨hab, hbc⟩
  · have hmem : ∀ y ∈ l₁, y < x := fun y hy => hx y (List.mem_append_left _ (h₁.subset hy))
    have hmem' : ∀ y ∈ r, y < x := fun y hy => hx y (List.mem_append_right _ (hr.subset hy))
    rcases triple_split e with ⟨-, -, rfl⟩ | ⟨-, rfl, rfl⟩ | ⟨rfl, rfl, -⟩
    · have hba : a > b := List.pairwise_pair.mp (hfall.sublist hr)
      exact absurd hab (not_lt_of_gt hba)
    · exact absurd hab (not_lt_of_gt (hmem' b List.mem_cons_self))
    · exact absurd hbc (not_lt_of_gt (hmem c List.mem_cons_self))

theorem Passing.Sound.push {input stack output : List α}
    (h : Passing.Sound all ⟨x :: input, stack, output⟩) :
    Passing.Sound all ⟨input, x :: stack, output⟩ where
  perm := by
    refine .trans ?_ h.perm
    rw [List.append_assoc, List.append_assoc]
    exact List.perm_middle.symm.append_left output
  falling := List.pairwise_cons.mpr ⟨fun y hy =>
    h.later y (List.mem_append_right _ hy) x List.mem_cons_self, h.falling⟩
  rising := (List.pairwise_cons.mp h.rising).2
  later y hy w hw := by
    rcases List.mem_append.mp hy with hy | hy
    · exact h.later y (List.mem_append_left _ hy) w (List.mem_cons_of_mem x hw)
    · rcases List.mem_cons.mp hy with rfl | hy
      · exact (List.pairwise_cons.mp h.rising).1 w hw
      · exact h.later y (List.mem_append_right _ hy) w (List.mem_cons_of_mem x hw)
  avoids := avoids_insert h.avoids (fun y hy => h.later y hy x List.mem_cons_self) h.falling

theorem Passing.Sound.pop {input stack output : List α}
    (h : Passing.Sound all ⟨input, x :: stack, output⟩) :
    Passing.Sound all ⟨input, stack, output ++ [x]⟩ := by
  have e : output ++ [x] ++ stack = output ++ x :: stack := by simp
  refine ⟨?_, (List.pairwise_cons.mp h.falling).2, h.rising, ?_, ?_⟩
  · show (output ++ [x] ++ stack ++ input).Perm all
    rw [e]
    exact h.perm
  · show ∀ y ∈ output ++ [x] ++ stack, _
    rw [e]
    exact h.later
  · show Avoids (output ++ [x] ++ stack)
    rw [e]
    exact h.avoids

theorem Passing.Sound.step (h : s.Sound all) {a : Turn} (hs : s.step a = some s') :
    s'.Sound all := by
  obtain ⟨input, stack, output⟩ := s
  cases a with
  | push =>
      cases input with
      | nil => cases hs
      | cons x input =>
          obtain rfl := Option.some.inj hs
          exact h.push
  | pop =>
      cases stack with
      | nil => cases hs
      | cons x stack =>
          obtain rfl := Option.some.inj hs
          exact h.pop

/-! ## 2. How to get an order -/

/-- **On the way to `target`**: what has come out is its beginning, and no more was pushed than the
    values that have come out, or the next one, have asked for. -/
structure Passing.Toward (target : List α) (s : Passing α) : Prop where
  begins : ∃ rest, target = s.output ++ rest ∧ ∀ x ∈ rest.head?,
    (∃ z ∈ s.output, ∀ y ∈ s.stack, y ≤ z) ∨ ∀ y ∈ s.stack, y ≤ x

/-- The values come out once each. -/
theorem Passing.Sound.nodup (h : s.Sound all) (hall : all.Pairwise (· < ·)) :
    (s.output ++ s.stack ++ s.input).Nodup :=
  h.perm.nodup_iff.mpr (hall.imp fun hlt => hlt.ne)

/-- The next value wanted lies on the stack: then it is the top. -/
theorem Passing.Sound.top_wanted {input stack output rest : List α}
    (h : Passing.Sound all ⟨input, y :: stack, output⟩) (hall : all.Pairwise (· < ·))
    (hperm : (output ++ x :: rest).Perm all) (havoid : Avoids (output ++ x :: rest))
    (hdue : (∃ z ∈ output, ∀ w ∈ y :: stack, w ≤ z) ∨ ∀ w ∈ y :: stack, w ≤ x)
    (hx : x ∈ y :: stack) : y = x := by
  rcases List.mem_cons.mp hx with rfl | hx
  · rfl
  exfalso
  have hxy : x < y := (List.pairwise_cons.mp h.falling).1 x hx
  rcases hdue with ⟨z, hz, hle⟩ | hle
  · have hnd := h.nodup hall
    have hout : y ∉ output := fun hy =>
      (List.nodup_append.mp (List.nodup_append.mp hnd).1).2.2 y hy y List.mem_cons_self rfl
    have hyz : y < z := lt_of_le_of_ne (hle y List.mem_cons_self) fun e => hout (e ▸ hz)
    -- `y` is still to come, so `z`, `x`, `y` come in this order.
    have hyall : y ∈ output ++ x :: rest := (hperm.trans h.perm.symm).mem_iff.mpr
      (List.mem_append_left _ (List.mem_append_right _ List.mem_cons_self))
    have hyrest : y ∈ rest := by
      rcases List.mem_append.mp hyall with hy | hy
      · exact absurd hy hout
      · rcases List.mem_cons.mp hy with rfl | hy
        · exact absurd hxy (lt_irrefl _)
        · exact hy
    have hsub : [z, x, y].Sublist (output ++ x :: rest) :=
      (List.singleton_sublist.mpr hz).append
        ((List.singleton_sublist.mpr hyrest).cons_cons x)
    exact havoid z x y hsub ⟨hxy, hyz⟩
  · exact absurd (hle y List.mem_cons_self) (not_le_of_gt hxy)

/-- **The next turn**: push until the value wanted is on the stack, then pop it. -/
theorem Passing.Toward.exists_step {target : List α} (ht : s.Toward target) (h : s.Sound all)
    (hall : all.Pairwise (· < ·)) (hperm : target.Perm all) (havoid : Avoids target)
    (hend : ¬ (s.input = [] ∧ s.stack = [])) :
    ∃ a s', s.step a = some s' ∧ s'.Toward target := by
  obtain ⟨input, stack, output⟩ := s
  obtain ⟨rest, rfl, hdue⟩ := ht.begins
  cases rest with
  | nil =>
      -- Everything has come out, so nothing is left.
      have hlen := (h.perm.trans hperm.symm).length_eq
      simp only [List.length_append, List.length_nil] at hlen
      have hin : input.length = 0 := by omega
      have hst : stack.length = 0 := by omega
      exact absurd ⟨List.length_eq_zero_iff.mp hin, List.length_eq_zero_iff.mp hst⟩ hend
  | cons x rest =>
      have hdue := hdue x rfl
      by_cases hx : x ∈ stack
      · cases stack with
        | nil => exact absurd hx List.not_mem_nil
        | cons y stack =>
            obtain rfl := h.top_wanted hall hperm havoid hdue hx
            refine ⟨.pop, _, rfl, ⟨rest, by simp, fun _ _ => .inl ?_⟩⟩
            rcases hdue with ⟨z, hz, hle⟩ | hle
            · exact ⟨z, List.mem_append_left _ hz, fun w hw => hle w (List.mem_cons_of_mem y hw)⟩
            · exact ⟨y, List.mem_append_right _ List.mem_cons_self, fun w hw =>
                hle w (List.mem_cons_of_mem y hw)⟩
      · have hxall : x ∈ output ++ stack ++ input := (hperm.trans h.perm.symm).mem_iff.mp
          (List.mem_append_right _ List.mem_cons_self)
        have hxout : x ∉ output := fun hmem =>
          (List.nodup_append.mp (hperm.nodup_iff.mpr (hall.imp fun hlt => hlt.ne))).2.2 x hmem x
            List.mem_cons_self rfl
        have hxin : x ∈ input := by
          rcases List.mem_append.mp hxall with hmem | hmem
          · exact absurd (List.mem_append.mp hmem) (not_or.mpr ⟨hxout, hx⟩)
          · exact hmem
        cases input with
        | nil => exact absurd hxin List.not_mem_nil
        | cons i input =>
            have hix : i ≤ x := by
              rcases List.mem_cons.mp hxin with rfl | hmem
              · exact le_refl _
              · exact le_of_lt ((List.pairwise_cons.mp h.rising).1 x hmem)
            refine ⟨.push, _, rfl, ⟨x :: rest, rfl, fun w hw => .inr fun y hy => ?_⟩⟩
            obtain rfl : x = w := Option.some.inj hw
            rcases List.mem_cons.mp hy with rfl | hy
            · exact hix
            · exact le_trans (le_of_lt (h.later y (List.mem_append_right _ hy) i
                List.mem_cons_self)) hix

/-- The turns still to take. -/
def Passing.left (s : Passing α) : ℕ := 2 * s.input.length + s.stack.length

omit [LinearOrder α] in
theorem left_step {a : Turn} (hs : s.step a = some s') : s'.left < s.left := by
  obtain ⟨input, stack, output⟩ := s
  cases a with
  | push =>
      cases input with
      | nil => cases hs
      | cons x input =>
          obtain rfl := Option.some.inj hs
          simp only [Passing.left, List.length_cons]
          omega
  | pop =>
      cases stack with
      | nil => cases hs
      | cons x stack =>
          obtain rfl := Option.some.inj hs
          simp only [Passing.left, List.length_cons]
          omega

end Sound

/-- **The orders in which a stack gives back values pushed in a rising order.** -/
theorem passes_iff {all : List α} (hall : all.Pairwise (· < ·)) (output : List α) :
    (∃ as, run Passing.step (.start all) as = some ⟨[], [], output⟩) ↔
      output.Perm all ∧ Avoids output := by
  constructor
  · rintro ⟨as, hrun⟩
    have h := (reach_run hrun).invariant (I := Passing.Sound all) (sound_start hall)
      fun _ _ _ hI _ hs => hI.step hs
    exact ⟨by simpa using h.perm, by simpa using h.avoids⟩
  · rintro ⟨hperm, havoid⟩
    obtain ⟨as, s, hrun, -, ⟨hsound, htoward⟩, hin, hst⟩ := exists_run_of_measure
      (I := fun s => Passing.Sound all s ∧ s.Toward output) (c := fun _ => True)
      (P := fun s => s.input = [] ∧ s.stack = []) Passing.left
      (fun s hI hend => by
        obtain ⟨a, s', hs, ht⟩ := hI.2.exists_step hI.1 hall hperm havoid hend
        exact ⟨a, s', trivial, hs, ⟨hI.1.step hs, ht⟩, left_step hs⟩)
      (Nat.le_refl _)
      ⟨sound_start hall, ⟨output, rfl, fun _ _ => .inr fun _ hy => absurd hy List.not_mem_nil⟩⟩
    obtain ⟨input, stack, out⟩ := s
    obtain ⟨rest, rfl, -⟩ := htoward.begins
    obtain rfl : input = [] := hin
    obtain rfl : stack = [] := hst
    have hlen := (hperm.trans hsound.perm.symm).length_eq
    obtain rfl : rest = [] := by
      refine List.length_eq_zero_iff.mp ?_
      simp only [List.length_append, List.length_nil] at hlen
      omega
    exact ⟨as, by rw [hrun, List.append_nil]⟩

end StackOrder
