/-
  File:      HseMultithreading/Lib/ReleaseAcquire.lean
  Subject:   A memory with release/acquire atomics and race detection for plain locations.

  Every atomic location keeps ALL messages ever stored to it, in modification order: message
  number `k` for `k ≤ last l`. A thread has a view: how much of every other thread's past happens
  before its next step (`clock`), and the oldest message of every location it may still read
  (`seen`). A load picks any message that is not older than that; an acquiring one joins the view
  the message carries, a releasing store attaches the writer's view to its message. A
  read-modify-write takes the newest message, and what it stores carries on the view of the message
  it read (the release sequence).

  A store goes to the end of the modification order. A thread that has not seen the newest message
  could have its store ordered before it as well, so such a store makes the memory `loose`: as long
  as it is not, the order kept here is the only one.

  A plain location holds one value and the log of its accesses. An access that is not ordered after
  every conflicting access of the log is a data race, and the memory is `racy` from then on.

  * `Memory`, `load`, `store`, `fetchModify`, `compareExchange`, `get`, `put` -- the operations;
  * `Sound` -- the newest message of a location may always be read, in every state the operations
    lead to;
  * `Covers log v A` -- the view `v` is behind every access to the plain locations `A`: the thread
    with such a view may access `A` without a race and keeps the view (`Covers.no_race`,
    `Covers.touch`), a releasing store attaches it to its message (`append_releases`) and an
    acquiring load takes it over (`observe_acquires`).
-/
import Mathlib.Order.Lattice.Nat
import Mathlib.Tactic.Common

namespace ReleaseAcquire

/-- `std::memory_order`, as far as it orders something here. -/
inductive Order where
  | relaxed | acquire | release | acqRel
  deriving DecidableEq, Repr

def Order.acquires : Order → Bool
  | .acquire | .acqRel => true
  | .relaxed | .release => false

def Order.releases : Order → Bool
  | .release | .acqRel => true
  | .relaxed | .acquire => false

/-- What a thread knows: the steps of every thread that happen before its next one, and the oldest
    message of every location that it may still read. Views are joined and compared pointwise. -/
abbrev View (T L : Type*) := (T → ℕ) × (L → ℕ)

structure Message (T L V : Type*) where
  value : V
  view : View T L

/-- An access to a plain location: by whom, at which step of its own, and whether it was a write. -/
structure Access (T : Type*) where
  thread : T
  time : ℕ
  write : Bool

structure Memory (T L : Type*) (V : L → Type*) {X : Type*} (P : X → Type*) where
  last : L → ℕ
  message : (l : L) → ℕ → Message T L (V l)
  view : T → View T L
  plain : (x : X) → P x
  log : X → List (Access T)
  racy : Bool
  loose : Bool

namespace Memory

variable {T L X : Type*} {V : L → Type*} {P : X → Type*}

/-- The newest value of a location. -/
def newest (m : Memory T L V P) (l : L) : V l := (m.message l (m.last l)).value

/-- The view of the newest message of a location. -/
def released (m : Memory T L V P) (l : L) : View T L := (m.message l (m.last l)).view

/-- A memory nobody has accessed yet: one message for each location. -/
def start (value : (l : L) → V l) (plain : (x : X) → P x) : Memory T L V P :=
  ⟨fun _ => 0, fun l _ => ⟨value l, ⊥⟩, fun _ => ⊥, plain, fun _ => [], false, false⟩

/-- Thread `t` may read message `k` of `l`: nothing older than what it has seen. -/
def Readable (m : Memory T L V P) (t : T) (l : L) (k : ℕ) : Prop :=
  (m.view t).2 l ≤ k ∧ k ≤ m.last l

instance (m : Memory T L V P) (t : T) (l : L) (k : ℕ) : Decidable (m.Readable t l k) :=
  inferInstanceAs (Decidable (_ ∧ _))

variable [DecidableEq T] [DecidableEq L] [DecidableEq X]

/-- The view `v` once message `k` of `l` has been seen. -/
def seeing (v : View T L) (l : L) (k : ℕ) : View T L := (v.1, Function.update v.2 l (max (v.2 l) k))

/-- Thread `t` takes message `k` of `l`. -/
def observe (m : Memory T L V P) (t : T) (l : L) (k : ℕ) (o : Order) : Memory T L V P :=
  let v := seeing (m.view t) l k
  { m with
    view := Function.update m.view t (if o.acquires then v ⊔ (m.message l k).view else v) }

/-- `load`: message `k`, if it may be read. -/
def load (m : Memory T L V P) (t : T) (l : L) (k : ℕ) (o : Order) :
    Option (Memory T L V P × V l) :=
  if m.Readable t l k then some (m.observe t l k o, (m.message l k).value) else none

/-- A new newest message of `l` by thread `t`; `carried` is the view it carries in any case. -/
def append (m : Memory T L V P) (t : T) (l : L) (v : V l) (o : Order) (carried : View T L) :
    Memory T L V P :=
  let k := m.last l + 1
  let view := seeing (m.view t) l k
  { m with
    last := Function.update m.last l k
    message := Function.update m.message l (Function.update (m.message l) k
      ⟨v, if o.releases then view ⊔ carried else carried⟩)
    view := Function.update m.view t view
    loose := m.loose || decide ((m.view t).2 l < m.last l) }

/-- `store`. -/
def store (m : Memory T L V P) (t : T) (l : L) (v : V l) (o : Order) : Memory T L V P :=
  m.append t l v o ⊥

/-- A read-modify-write: the newest message is read, and the next one carries its view on. -/
def fetchModify (m : Memory T L V P) (t : T) (l : L) (f : V l → V l) (o : Order) :
    Memory T L V P × V l :=
  ((m.observe t l (m.last l) o).append t l (f (m.newest l)) o (m.released l), m.newest l)

/-- `compare_exchange_strong` that compares with message `k`: a success is a read-modify-write and
    takes the newest message, a failure is a load of a message with another value. -/
def compareExchange (m : Memory T L V P) [∀ l, DecidableEq (V l)] (t : T) (l : L)
    (expected desired : V l) (success failure : Order) (k : ℕ) : Option (Memory T L V P × Bool) :=
  if m.Readable t l k then
    if (m.message l k).value = expected then
      if k = m.last l then some ((m.fetchModify t l (fun _ => desired) success).1, true) else none
    else some (m.observe t l k failure, false)
  else none

/-- A conflicting access of the log that does not happen before the view. -/
def Conflict (v : View T L) (w : Bool) (a : Access T) : Prop :=
  (a.write || w) = true ∧ v.1 a.thread < a.time

instance (v : View T L) (w : Bool) (a : Access T) : Decidable (Conflict v w a) :=
  inferInstanceAs (Decidable (_ ∧ _))

/-- Thread `t` accesses the plain location `x`. -/
def touch (m : Memory T L V P) (t : T) (x : X) (w : Bool) : Memory T L V P :=
  let v := m.view t
  let time := v.1 t + 1
  { m with
    view := Function.update m.view t (Function.update v.1 t time, v.2)
    log := Function.update m.log x (⟨t, time, w⟩ :: m.log x)
    racy := m.racy || (m.log x).any fun a => decide (Conflict v w a) }

/-- A plain read. -/
def get (m : Memory T L V P) (t : T) (x : X) : Memory T L V P × P x :=
  (m.touch t x false, m.plain x)

/-- A plain write. -/
def put (m : Memory T L V P) (t : T) (x : X) (b : P x) : Memory T L V P :=
  { m.touch t x true with plain := Function.update m.plain x b }

end Memory

/-! ## 1. Views grow -/

section Atomics

variable {T L X : Type*} {V : L → Type*} {P : X → Type*} [DecidableEq T] [DecidableEq L]
  {m : Memory T L V P} {t : T} {l : L}

open Memory

omit [DecidableEq T] in
theorem le_seeing (v : View T L) (l : L) (k : ℕ) : v ≤ seeing v l k := by
  refine ⟨le_refl _, fun l' => ?_⟩
  by_cases e : l' = l
  · subst e
    simp only [seeing, Function.update_self]
    exact le_max_left _ _
  · simp only [seeing, Function.update_of_ne e]
    exact le_refl _

omit [DecidableEq L] in
/-- One thread's view is replaced by a larger one. -/
theorem view_update_mono {view : T → View T L} {v : View T L} (h : view t ≤ v) (u : T) :
    view u ≤ Function.update view t v u := by
  by_cases e : u = t
  · subst e
    rw [Function.update_self]
    exact h
  · rw [Function.update_of_ne e]

theorem observe_view_mono (k : ℕ) (o : Order) (u : T) : m.view u ≤ (m.observe t l k o).view u := by
  refine view_update_mono ?_ u
  split
  · exact le_trans (le_seeing _ _ _) le_sup_left
  · exact le_seeing _ _ _

/-- A thread has seen the message it read. -/
theorem observe_seen (k : ℕ) (o : Order) : k ≤ ((m.observe t l k o).view t).2 l := by
  have h : k ≤ (seeing (m.view t) l k).2 l := by
    simp only [seeing, Function.update_self]
    exact le_max_right _ _
  simp only [observe, Function.update_self]
  split
  · exact le_trans h (le_sup_left (a := seeing (m.view t) l k) |>.2 l)
  · exact h

theorem append_view_mono (v : V l) (o : Order) (c : View T L) (u : T) :
    m.view u ≤ (m.append t l v o c).view u :=
  view_update_mono (le_seeing _ _ _) u

/-- An acquiring load knows what the message it read carries. -/
theorem observe_acquires (k : ℕ) {o : Order} (ho : o.acquires = true) :
    (m.message l k).view ≤ (m.observe t l k o).view t := by
  simp only [observe, Function.update_self]
  rw [if_pos ho]
  exact le_sup_right

/-- A releasing store attaches what its thread knows. -/
theorem append_releases (v : V l) {o : Order} (ho : o.releases = true) (c : View T L) :
    m.view t ≤ (m.append t l v o c).released l := by
  simp only [released, append, Function.update_self]
  rw [if_pos ho]
  exact le_trans (le_seeing _ _ _) le_sup_left

/-- A thread has seen its own store. -/
theorem append_seen (v : V l) (o : Order) (c : View T L) :
    (m.append t l v o c).last l ≤ ((m.append t l v o c).view t).2 l := by
  simp only [append, Function.update_self, seeing]
  exact le_max_right _ _

/-- The store of a thread that has seen the newest message has its place. -/
theorem append_loose (h : m.last l ≤ (m.view t).2 l) (v : V l) (o : Order) (c : View T L) :
    (m.append t l v o c).loose = m.loose := by
  simp only [append, decide_eq_false (Nat.not_lt.mpr h), Bool.or_false]

/-- A store leaves the messages of before as they were. -/
theorem append_message {l' : L} {k : ℕ} (hk : k ≤ m.last l') (v : V l) (o : Order)
    (c : View T L) : (m.append t l v o c).message l' k = m.message l' k := by
  by_cases e : l' = l
  · subst e
    simp only [append, Function.update_self]
    exact Function.update_of_ne (by omega) _ _
  · simp only [append, Function.update_of_ne e]

@[simp] theorem append_plain (v : V l) (o : Order) (c : View T L) :
    (m.append t l v o c).plain = m.plain := by
  simp only [append]

@[simp] theorem append_newest (v : V l) (o : Order) (c : View T L) :
    (m.append t l v o c).newest l = v := by
  simp only [newest, append, Function.update_self]

theorem append_last_of_ne {l' : L} (h : l' ≠ l) (v : V l) (o : Order) (c : View T L) :
    (m.append t l v o c).last l' = m.last l' :=
  Function.update_of_ne h _ _

theorem append_newest_of_ne {l' : L} (h : l' ≠ l) (v : V l) (o : Order) (c : View T L) :
    (m.append t l v o c).newest l' = m.newest l' := by
  simp only [newest, append, Function.update_of_ne h]

theorem append_released_of_ne {l' : L} (h : l' ≠ l) (v : V l) (o : Order) (c : View T L) :
    (m.append t l v o c).released l' = m.released l' := by
  simp only [released, append, Function.update_of_ne h]

/-- What a load can be. -/
theorem load_cases {k : ℕ} {o : Order} {r : Memory T L V P × V l} (h : m.load t l k o = some r) :
    m.Readable t l k ∧ r = (m.observe t l k o, (m.message l k).value) := by
  unfold Memory.load at h
  split at h
  · rename_i hk
    exact ⟨hk, (Option.some.inj h).symm⟩
  · cases h

/-- What a `compare_exchange` can be. -/
theorem compareExchange_cases [∀ l, DecidableEq (V l)] {k : ℕ} {e d : V l} {so fo : Order}
    {r : Memory T L V P × Bool} (h : m.compareExchange t l e d so fo k = some r) :
    (m.newest l = e ∧ r = ((m.fetchModify t l (fun _ => d) so).1, true)) ∨
      (m.Readable t l k ∧ (m.message l k).value ≠ e ∧ r = (m.observe t l k fo, false)) := by
  unfold Memory.compareExchange at h
  split at h
  · rename_i hread
    split at h
    · split at h
      · rename_i he hk
        subst hk
        exact .inl ⟨he, (Option.some.inj h).symm⟩
      · cases h
    · rename_i hne
      exact .inr ⟨hread, hne, (Option.some.inj h).symm⟩
  · cases h

end Atomics

/-! ## 2. The newest message may always be read -/

/-- Nobody, thread or message, has seen a message that is not there. -/
structure Sound {T L X : Type*} {V : L → Type*} {P : X → Type*} (m : Memory T L V P) : Prop where
  view : ∀ t l, (m.view t).2 l ≤ m.last l
  message : ∀ l k, k ≤ m.last l → ∀ l', (m.message l k).view.2 l' ≤ m.last l'

section Sound

variable {T L X : Type*} {V : L → Type*} {P : X → Type*} {m : Memory T L V P} {t : T} {l : L}

open Memory

theorem Sound.start (value : (l : L) → V l) (plain : (x : X) → P x) :
    Sound (Memory.start value plain : Memory T L V P) :=
  ⟨fun _ _ => Nat.le_refl 0, fun _ _ _ _ => Nat.le_refl 0⟩

theorem Sound.readable (h : Sound m) : m.Readable t l (m.last l) := ⟨h.view t l, le_refl _⟩

variable [DecidableEq T] [DecidableEq L]

theorem Sound.load (h : Sound m) (o : Order) :
    m.load t l (m.last l) o = some (m.observe t l (m.last l) o, m.newest l) :=
  if_pos h.readable

theorem Sound.exchange [∀ l, DecidableEq (V l)] (h : Sound m) {e : V l} (he : m.newest l = e)
    (d : V l) (so fo : Order) :
    m.compareExchange t l e d so fo (m.last l) =
      some ((m.fetchModify t l (fun _ => d) so).1, true) := by
  rw [Memory.compareExchange, if_pos h.readable]
  exact (if_pos he).trans (if_pos rfl)

theorem Sound.refuse [∀ l, DecidableEq (V l)] (h : Sound m) {e : V l} (he : m.newest l ≠ e)
    (d : V l) (so fo : Order) :
    m.compareExchange t l e d so fo (m.last l) = some (m.observe t l (m.last l) fo, false) := by
  rw [Memory.compareExchange, if_pos h.readable]
  exact if_neg he

omit [DecidableEq T] in
theorem seeing_le {v : View T L} {last : L → ℕ} {k : ℕ} (h : ∀ l, v.2 l ≤ last l)
    (hk : k ≤ last l) (l' : L) : (seeing v l k).2 l' ≤ last l' := by
  by_cases e : l' = l
  · subst e
    simp only [seeing, Function.update_self]
    exact max_le (h l') hk
  · simp only [seeing, Function.update_of_ne e]
    exact h l'

theorem Sound.observe (h : Sound m) {k : ℕ} (hk : k ≤ m.last l) (o : Order) :
    Sound (m.observe t l k o) := by
  refine ⟨fun u l' => ?_, h.message⟩
  show ((m.observe t l k o).view u).2 l' ≤ m.last l'
  by_cases e : u = t
  · subst e
    simp only [Memory.observe, Function.update_self]
    split
    · exact sup_le (seeing_le (h.view u) hk l') (h.message l k hk l')
    · exact seeing_le (h.view u) hk l'
  · simp only [Memory.observe, Function.update_of_ne e]
    exact h.view u l'

theorem Sound.append (h : Sound m) (v : V l) (o : Order) {c : View T L}
    (hc : ∀ l', c.2 l' ≤ m.last l') : Sound (m.append t l v o c) := by
  have hgrow : ∀ l', m.last l' ≤ (m.append t l v o c).last l' := by
    intro l'
    by_cases e : l' = l
    · subst e
      simp only [Memory.append, Function.update_self]
      exact Nat.le_succ _
    · rw [append_last_of_ne e]
  have hnew : m.last l + 1 ≤ (m.append t l v o c).last l := by
    simp only [Memory.append, Function.update_self]
    exact le_refl _
  have hsee := seeing_le (v := m.view t) (fun l' => le_trans (h.view t l') (hgrow l')) hnew
  refine ⟨fun u l' => ?_, fun l₁ k hk l' => ?_⟩
  · by_cases e : u = t
    · subst e
      simp only [Memory.append, Function.update_self]
      exact hsee l'
    · simp only [Memory.append, Function.update_of_ne e]
      exact le_trans (h.view u l') (hgrow l')
  · by_cases hold : k ≤ m.last l₁
    · rw [append_message hold]
      exact le_trans (h.message l₁ k hold l') (hgrow l')
    · have e : l₁ = l := by
        by_contra e
        exact hold (append_last_of_ne e v o c ▸ hk)
      subst e
      have hk' : k = m.last l₁ + 1 := by
        simp only [Memory.append, Function.update_self] at hk
        omega
      subst hk'
      simp only [Memory.append, Function.update_self]
      split
      · exact sup_le (hsee l') (le_trans (hc l') (hgrow l'))
      · exact le_trans (hc l') (hgrow l')

theorem Sound.store (h : Sound m) (v : V l) (o : Order) : Sound (m.store t l v o) :=
  h.append v o fun _ => Nat.zero_le _

theorem Sound.fetchModify (h : Sound m) (f : V l → V l) (o : Order) :
    Sound (m.fetchModify t l f o).1 :=
  (h.observe (le_refl _) o).append _ o (h.message l _ (le_refl _))

omit [DecidableEq L] in
theorem Sound.touch [DecidableEq X] (h : Sound m) (x : X) (w : Bool) : Sound (m.touch t x w) := by
  refine ⟨fun u l' => ?_, h.message⟩
  by_cases e : u = t
  · subst e
    simp only [Memory.touch, Function.update_self]
    exact h.view u l'
  · simp only [Memory.touch, Function.update_of_ne e]
    exact h.view u l'

omit [DecidableEq L] in
theorem Sound.put [DecidableEq X] (h : Sound m) (x : X) (b : P x) : Sound (m.put t x b) :=
  ⟨(h.touch x true).view, h.message⟩

end Sound

/-! ## 3. Who may access what -/

/-- **The view `v` is behind every access to the locations `A`.** -/
def Covers {T L X : Type*} (log : X → List (Access T)) (v : View T L) (A : X → Prop) : Prop :=
  ∀ x, A x → ∀ a ∈ log x, a.time ≤ v.1 a.thread

section Plain

variable {T L X : Type*} {V : L → Type*} {P : X → Type*} [DecidableEq T] [DecidableEq X]
  {m : Memory T L V P} {t : T} {x : X} {A : X → Prop} {v v' : View T L}

open Memory

omit [DecidableEq T] [DecidableEq X] in
theorem Covers.mono {log : X → List (Access T)} (h : Covers log v A) (hv : v ≤ v') :
    Covers log v' A :=
  fun x hx a ha => le_trans (h x hx a ha) (hv.1 a.thread)

theorem touch_view_mono (x : X) (w : Bool) (u : T) : m.view u ≤ (m.touch t x w).view u := by
  have htick : m.view t ≤ (Function.update (m.view t).1 t ((m.view t).1 t + 1), (m.view t).2) := by
    refine ⟨fun t' => ?_, le_refl _⟩
    by_cases e : t' = t
    · subst e
      simp only [Function.update_self]
      exact Nat.le_succ _
    · simp only [Function.update_of_ne e]
      exact le_refl _
  exact view_update_mono htick u

@[simp] theorem put_newest (b : P x) (l : L) : (m.put t x b).newest l = m.newest l := by
  simp only [newest, put, touch]

@[simp] theorem put_plain_self (b : P x) : (m.put t x b).plain x = b :=
  Function.update_self ..

@[simp] theorem put_plain_of_ne {y : X} (h : y ≠ x) (b : P x) :
    (m.put t x b).plain y = m.plain y :=
  Function.update_of_ne h ..

/-- An access outside the locations leaves their cover alone. -/
theorem Covers.elsewhere (h : Covers m.log v A) (hx : ¬ A x) (w : Bool) :
    Covers (m.touch t x w).log v A := by
  intro y hy a ha
  have e : y ≠ x := fun e => hx (e ▸ hy)
  simp only [touch, Function.update_of_ne e] at ha
  exact h y hy a ha

/-- **The thread whose view covers the locations may go on accessing them.** -/
theorem Covers.touch (h : Covers m.log (m.view t) A) (w : Bool) :
    Covers (m.touch t x w).log ((m.touch t x w).view t) A := by
  intro y hy a ha
  have hgrow := (touch_view_mono (m := m) (t := t) x w t).1
  by_cases e : y = x
  · subst e
    simp only [Memory.touch, Function.update_self] at ha
    rcases List.mem_cons.mp ha with rfl | ha
    · simp only [Memory.touch, Function.update_self]
      exact le_refl _
    · exact le_trans (h y hy a ha) (hgrow a.thread)
  · simp only [Memory.touch, Function.update_of_ne e] at ha
    exact le_trans (h y hy a ha) (hgrow a.thread)

/-- **And it races with nobody.** -/
theorem Covers.no_race (h : Covers m.log (m.view t) A) (hx : A x) (w : Bool) :
    (m.touch t x w).racy = m.racy := by
  have hany : (m.log x).any (fun a => decide (Conflict (m.view t) w a)) = false := by
    refine List.any_eq_false.mpr fun a ha => ?_
    rw [decide_eq_true_iff]
    exact fun hc => absurd hc.2 (Nat.not_lt.mpr (h x hx a ha))
  simp only [Memory.touch, hany, Bool.or_false]

end Plain

end ReleaseAcquire
