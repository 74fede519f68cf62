/-
  File:      HseMultithreading/Lib/Run.lean
  Subject:   Runs of a step function with a partial next state, and the rules to reason about them.

  A system is given by `step : σ → α → Option σ`: in state `s` the action `a` is possible when
  `step s a` is `some s'`, and then leads to `s'`. Every interleaving is a list of actions.

  * `run` -- executes a list of actions (so a concrete schedule can be evaluated);
  * `ReachWhere step C s₀` -- the states reached from `s₀` by steps that all meet the condition
    `C` in the state before them; `Reach` is the case of no condition;
  * `ReachWhere.invariant` -- what holds at the start and is kept by every such step holds in
    every state reached;
  * `reach_of_run` -- a schedule that was evaluated reaches its last state;
  * `Along step C` -- the schedules all of whose steps meet `C`, and `run_along_iff`: a property
    that every step keeps exactly when it meets `C` holds at the end of a run exactly when all of
    its steps met `C`;
  * `exists_zero` -- a measure that the steps of one party decrease and the others never raise comes
    down to zero once that party has taken as many steps, whatever the others do in between;
  * `exists_run_of_measure` -- the goal can be reached where allowed steps bring a measure down;
  * `outputs` -- what a run answers, step by step;
  * `run_view` -- two systems whose steps look alike have the same schedules;
  * `Halts step s₀ P` -- every maximal run from `s₀` ends, and ends in `P`: `halts_of_measure` from
    a measure that every step decreases, and `Halts.exists_end`, since there is such a run.
-/
import Mathlib.Logic.Function.Basic
import Mathlib.Tactic.Common

namespace StepSystem

variable {σ α : Type*}

/-- Execute a list of actions. -/
def run (step : σ → α → Option σ) : σ → List α → Option σ
  | s, [] => some s
  | s, a :: as => (step s a).bind fun s' => run step s' as

/-- **The states reached from `s₀`** by steps that all meet `C` in the state before them. -/
inductive ReachWhere (step : σ → α → Option σ) (C : σ → α → Prop) (s₀ : σ) : σ → Prop where
  | start : ReachWhere step C s₀ s₀
  | next (s s' : σ) (a : α) (h : ReachWhere step C s₀ s) (hc : C s a) (hs : step s a = some s') :
      ReachWhere step C s₀ s'

/-- The states reached from `s₀` by any steps at all. -/
abbrev Reach (step : σ → α → Option σ) (s₀ : σ) : σ → Prop :=
  ReachWhere step (fun _ _ => True) s₀

section Rules

variable {step : σ → α → Option σ} {C : σ → α → Prop} {s₀ s s' : σ}

/-- **The invariant rule.** -/
theorem ReachWhere.invariant {I : σ → Prop} (h : ReachWhere step C s₀ s) (h0 : I s₀)
    (hstep : ∀ s a s', I s → C s a → step s a = some s' → I s') : I s := by
  induction h with
  | start => exact h0
  | next s s' a _ hc hs ih => exact hstep s a s' ih hc hs

theorem ReachWhere.trans {s'' : σ} (h : ReachWhere step C s s') (h' : ReachWhere step C s' s'') :
    ReachWhere step C s s'' := by
  induction h' with
  | start => exact h
  | next t t' a _ hc hs ih => exact .next t t' a ih hc hs

theorem ReachWhere.single {a : α} (hc : C s a) (hs : step s a = some s') :
    ReachWhere step C s s' :=
  .next s s' a .start hc hs

/-- A weaker condition reaches at least as much. -/
theorem ReachWhere.mono {C' : σ → α → Prop} (hC : ∀ s a, C s a → C' s a)
    (h : ReachWhere step C s₀ s) : ReachWhere step C' s₀ s := by
  induction h with
  | start => exact .start
  | next s s' a _ hc hs ih => exact .next s s' a ih (hC s a hc) hs

theorem ReachWhere.reach (h : ReachWhere step C s₀ s) : Reach step s₀ s :=
  h.mono fun _ _ _ => trivial

theorem reach_run {as : List α} (h : run step s as = some s') : Reach step s s' := by
  induction as generalizing s with
  | nil =>
      have e : s = s' := Option.some.inj h
      exact e ▸ .start
  | cons a as ih =>
      cases hs : step s a with
      | none => rw [run, hs] at h; cases h
      | some t =>
          rw [run, hs] at h
          exact (ReachWhere.single trivial hs).trans (ih h)

/-- The step function that refuses what a Boolean condition refuses. -/
def guarded (step : σ → α → Option σ) (c : σ → α → Bool) (s : σ) (a : α) : Option σ :=
  if c s a then step s a else none

theorem reach_guarded {c : σ → α → Bool} (h : Reach (guarded step c) s₀ s) :
    ReachWhere step (fun s a => c s a = true) s₀ s := by
  induction h with
  | start => exact .start
  | next s s' a _ _ hs ih =>
      unfold guarded at hs
      split at hs
      · rename_i hc
        exact .next s s' a ih hc hs
      · cases hs

/-- **A schedule that was evaluated reaches its last state**: a Boolean test that is true of the
    last state of a run is true of a state reached by steps that all pass the guard. -/
theorem reach_of_run (step : σ → α → Option σ) (c : σ → α → Bool) (s₀ : σ) (as : List α)
    (p : σ → Bool) (h : (run (guarded step c) s₀ as).map p = some true) :
    ∃ s, ReachWhere step (fun s a => c s a = true) s₀ s ∧ p s = true := by
  cases hr : run (guarded step c) s₀ as with
  | none => rw [hr] at h; cases h
  | some s =>
      rw [hr] at h
      exact ⟨s, reach_guarded (reach_run hr), Option.some.inj h⟩

/-- **All steps of a schedule meet `C`.** -/
def Along (step : σ → α → Option σ) (C : σ → α → Prop) : σ → List α → Prop
  | _, [] => True
  | s, a :: as => C s a ∧ ∀ s', step s a = some s' → Along step C s' as

/-- **The exact rule**: under an invariant `I`, a property that a step keeps exactly when the step
    meets `C` survives a run exactly when all steps of the run meet `C`. -/
theorem run_along_iff {I P : σ → Prop} (hI : ∀ s a s', I s → step s a = some s' → I s')
    (hP : ∀ s a s', I s → step s a = some s' → (P s' ↔ P s ∧ C s a)) {as : List α} :
    ∀ {s₀}, I s₀ → run step s₀ as = some s → (P s ↔ P s₀ ∧ Along step C s₀ as) := by
  induction as with
  | nil =>
      intro s₀ _ h
      obtain rfl : s₀ = s := Option.some.inj h
      exact (and_iff_left trivial).symm
  | cons a as ih =>
      intro s₀ h0 h
      obtain ⟨t, ht, hrun⟩ := Option.bind_eq_some_iff.mp h
      rw [ih (hI _ _ _ h0 ht) hrun, hP _ _ _ h0 ht, and_assoc]
      refine and_congr Iff.rfl (and_congr Iff.rfl ⟨fun hA s' hs => ?_, fun hA => hA t ht⟩)
      rw [ht] at hs
      exact Option.some.inj hs ▸ hA

end Rules

/-! ## The steps of one party -/

section Party

variable {step : σ → α → Option σ} {s s' : σ}

theorem run_append {as bs : List α} :
    run step s (as ++ bs) = (run step s as).bind (run step · bs) := by
  induction as generalizing s with
  | nil => rfl
  | cons a as ih =>
      cases hs : step s a with
      | none => simp only [List.cons_append, run, hs, Option.bind_none]
      | some t => simp only [List.cons_append, run, hs, Option.bind_some, ih]

/-- **Own steps count, the others' do not**: `m` is what one party still has to do. Its own steps
    decrease it, no other step raises it while it is not zero; then a run with as many own steps
    comes by a state where nothing is left to do. -/
theorem exists_zero (m : σ → ℕ) (own : α → Bool)
    (hown : ∀ s a s', step s a = some s' → own a = true → m s ≠ 0 → m s' < m s)
    (hother : ∀ s a s', step s a = some s' → own a = false → m s ≠ 0 → m s' ≤ m s) {as : List α} :
    ∀ {s}, run step s as = some s' → m s ≤ as.countP own →
      ∃ before after t, as = before ++ after ∧ run step s before = some t ∧ m t = 0 := by
  induction as with
  | nil => exact fun h hm => ⟨[], [], _, rfl, rfl, Nat.le_zero.mp hm⟩
  | cons a as ih =>
      intro s h hm
      by_cases hz : m s = 0
      · exact ⟨[], a :: as, s, rfl, rfl, hz⟩
      obtain ⟨t, ht, hrun⟩ := Option.bind_eq_some_iff.mp h
      have hle : m t ≤ as.countP own := by
        cases ho : own a with
        | true =>
            have hless := hown s a t ht ho hz
            rw [List.countP_cons_of_pos ho] at hm
            omega
        | false =>
            have hkeep := hother s a t ht ho hz
            rw [List.countP_cons_of_neg (by rw [ho]; decide)] at hm
            omega
      obtain ⟨before, after, u, rfl, hu, hzero⟩ := ih hrun hle
      exact ⟨a :: before, after, u, rfl, by rw [run, ht]; exact hu, hzero⟩

/-- **The rule of ways out**: where some step among those allowed brings the measure down, the goal
    can be reached. -/
theorem exists_run_of_measure {I P : σ → Prop} {c : α → Prop} (m : σ → ℕ)
    (h : ∀ s, I s → ¬ P s → ∃ a s', c a ∧ step s a = some s' ∧ I s' ∧ m s' < m s) {k : ℕ} :
    ∀ {s}, m s ≤ k → I s → ∃ as s', run step s as = some s' ∧ (∀ a ∈ as, c a) ∧ I s' ∧ P s' := by
  induction k with
  | zero =>
      intro s hk hI
      refine ⟨[], s, rfl, fun _ ha => absurd ha List.not_mem_nil, hI, ?_⟩
      by_contra hP
      obtain ⟨a, s', -, -, -, hlt⟩ := h s hI hP
      omega
  | succ k ih =>
      intro s hk hI
      by_cases hP : P s
      · exact ⟨[], s, rfl, fun _ ha => absurd ha List.not_mem_nil, hI, hP⟩
      · obtain ⟨a, s₁, ha, hs, hI₁, hlt⟩ := h s hI hP
        obtain ⟨as, s', hrun, hall, hend⟩ := ih (Nat.le_of_lt_succ (Nat.lt_of_lt_of_le hlt hk)) hI₁
        refine ⟨a :: as, s', ?_, List.forall_mem_cons.mpr ⟨ha, hall⟩, hend⟩
        rw [run, hs, Option.bind_some, hrun]

/-- **The answers of a run**, step by step. -/
def outputs {β : Type*} (step : σ → α → Option σ) (out : σ → α → Option β) : σ → List α → List β
  | _, [] => []
  | s, a :: as => (out s a).toList ++ ((step s a).map fun s' => outputs step out s' as).getD []

theorem outputs_append {β : Type*} {out : σ → α → Option β} {as bs : List α}
    (h : run step s as = some s') :
    outputs step out s (as ++ bs) = outputs step out s as ++ outputs step out s' bs := by
  induction as generalizing s with
  | nil =>
      obtain rfl : s = s' := Option.some.inj h
      rfl
  | cons a as ih =>
      obtain ⟨t, ht, hrun⟩ := Option.bind_eq_some_iff.mp h
      simp only [List.cons_append, outputs, ht, Option.map_some, Option.getD_some, ih hrun,
        List.append_assoc]

end Party

/-! ## Two systems -/

/-- **The rule of views**: two systems that look alike, and whose steps look alike from then on,
    have the same schedules and look alike after each of them. -/
theorem run_view {τ υ : Type*} {step : σ → α → Option σ} {step' : τ → α → Option τ}
    {view : σ → υ} {view' : τ → υ}
    (h : ∀ s t a, view s = view' t → (step s a).map view = (step' t a).map view') (as : List α) :
    ∀ {s t}, view s = view' t → (run step s as).map view = (run step' t as).map view' := by
  induction as with
  | nil => exact fun hv => congrArg some hv
  | cons a as ih =>
      intro s t hv
      have hstep := h s t a hv
      cases hs : step s a with
      | none =>
          rw [hs, Option.map_none, eq_comm, Option.map_eq_none_iff] at hstep
          simp only [run, hs, hstep, Option.bind_none, Option.map_none]
      | some s' =>
          rw [hs, Option.map_some, eq_comm, Option.map_eq_some_iff] at hstep
          obtain ⟨t', ht, hv'⟩ := hstep
          simp only [run, hs, ht, Option.bind_some, ih hv'.symm]

/-! ## Maximal runs -/

/-- No action is possible. -/
def Stuck (step : σ → α → Option σ) (s : σ) : Prop := ∀ a, step s a = none

/-- **Every maximal run ends, and ends in `P`**: the runs from `s₀` are bounded in length, and where
    no step leads on, `P` holds. -/
structure Halts (step : σ → α → Option σ) (s₀ : σ) (P : σ → Prop) : Prop where
  bounded : ∃ n, ∀ as s, run step s₀ as = some s → as.length ≤ n
  ends : ∀ s, Reach step s₀ s → Stuck step s → P s

section Maximal

variable {step : σ → α → Option σ} {s₀ s s' : σ}

/-- **A measure that every step decreases**, under an invariant, **bounds the length of a run.** -/
theorem run_length_le {I : σ → Prop} (m : σ → ℕ)
    (hm : ∀ s a s', I s → step s a = some s' → I s' ∧ m s' < m s) {as : List α} (h0 : I s₀)
    (h : run step s₀ as = some s) : as.length ≤ m s₀ := by
  induction as generalizing s₀ with
  | nil => exact Nat.zero_le _
  | cons a as ih =>
      obtain ⟨t, ht, hrun⟩ := Option.bind_eq_some_iff.mp h
      obtain ⟨hI, hless⟩ := hm s₀ a t h0 ht
      exact Nat.succ_le_of_lt (Nat.lt_of_le_of_lt (ih hI hrun) hless)

theorem halts_of_measure {I P : σ → Prop} (m : σ → ℕ)
    (hm : ∀ s a s', I s → step s a = some s' → I s' ∧ m s' < m s) (h0 : I s₀)
    (hP : ∀ s, I s → Stuck step s → P s) : Halts step s₀ P :=
  ⟨⟨m s₀, fun _ _ h => run_length_le m hm h0 h⟩, fun s hs =>
    hP s (hs.invariant h0 fun s a s' hI _ hstep => (hm s a s' hI hstep).1)⟩

/-- A run that cannot be prolonged for ever leads to a state without a next step. -/
theorem exists_stuck {n : ℕ} : ∀ {s : σ},
    (∀ as s', run step s as = some s' → as.length ≤ n) → ∃ s', Reach step s s' ∧ Stuck step s' := by
  induction n with
  | zero =>
      intro s hn
      refine ⟨s, .start, fun a => Option.eq_none_iff_forall_not_mem.mpr fun t ht => ?_⟩
      have hlen := hn [a] t (by rw [run, ht]; rfl)
      exact Nat.not_succ_le_zero _ hlen
  | succ n ih =>
      intro s hn
      by_cases hstuck : Stuck step s
      · exact ⟨s, .start, hstuck⟩
      · obtain ⟨a, ha⟩ := not_forall.mp hstuck
        obtain ⟨t, ht⟩ := Option.ne_none_iff_exists'.mp ha
        obtain ⟨s', hs', hend⟩ := ih (s := t) fun as s' hrun =>
          Nat.le_of_succ_le_succ (hn (a :: as) s' (by rw [run, ht]; exact hrun))
        exact ⟨s', (ReachWhere.single trivial ht).trans hs', hend⟩

theorem Halts.mono {P Q : σ → Prop} (h : Halts step s₀ P) (hPQ : ∀ s, P s → Q s) :
    Halts step s₀ Q :=
  ⟨h.bounded, fun s hs hstuck => hPQ s (h.ends s hs hstuck)⟩

theorem Halts.exists_end {P : σ → Prop} (h : Halts step s₀ P) :
    ∃ s, Reach step s₀ s ∧ Stuck step s ∧ P s := by
  obtain ⟨n, hn⟩ := h.bounded
  obtain ⟨s, hs, hstuck⟩ := exists_stuck hn
  exact ⟨s, hs, hstuck, h.ends s hs hstuck⟩

end Maximal

end StepSystem
