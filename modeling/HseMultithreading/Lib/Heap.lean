/-
  File:      HseMultithreading/Lib/Heap.lean
  Subject:   Cells that are allocated and deleted, linked into a chain, and held by threads.

  An address may be handed out again once its cell was deleted, so an address does not name a cell
  for good. Every allocation has a number of its own, its birth, and `Heap` keeps the births of the
  cells deleted so far.

  * `Chain next p l` -- the pointer `p` leads through the cells `l` to null. Such a chain visits no
    cell twice (`Chain.nodup`) and depends on the links of its own cells only (`Chain.congr`).
  * `Heap`, `Heap.Sound` -- no access has hit a dead cell, and the cells deleted together with the
    live ones are the cells allocated.
  * `Owned holds live l` -- every live cell lies in the chain or is held by exactly one thread. One
    rule for each way a cell changes hands: `acquire`, `publish`, `take`, `release`, and `keep`.
-/
import Mathlib.Algebra.Order.Group.Multiset
import Mathlib.Data.Finset.Basic
import Mathlib.Data.Finset.Insert
import Mathlib.Data.Finset.Erase
import Mathlib.Data.Multiset.Range

namespace LinkedHeap

/-! ## 1. Chains -/

section Chains

variable {κ : Type*} {next next' : κ → Option κ} {p : Option κ} {a : κ} {l l' : List κ}

/-- The cells from a pointer to null. -/
inductive Chain (next : κ → Option κ) : Option κ → List κ → Prop where
  | nil : Chain next none []
  | cons (a : κ) (l : List κ) (h : Chain next (next a) l) : Chain next (some a) (a :: l)

theorem Chain.eq_nil (h : Chain next none l) : l = [] := by
  cases h
  rfl

theorem Chain.eq_cons (h : Chain next (some a) l) : ∃ k, l = a :: k ∧ Chain next (next a) k := by
  cases h with
  | cons _ k hk => exact ⟨k, rfl, hk⟩

theorem Chain.unique (h : Chain next p l) : ∀ {l'}, Chain next p l' → l = l' := by
  induction h with
  | nil => exact fun h' => h'.eq_nil.symm
  | cons a l _ ih =>
      intro l' h'
      obtain ⟨k, rfl, hk⟩ := h'.eq_cons
      rw [ih hk]

/-- From a cell of a chain the rest of the chain follows. -/
theorem Chain.rest (h : Chain next p l) (ha : a ∈ l) :
    ∃ k, Chain next (some a) (a :: k) ∧ k.length < l.length := by
  induction h with
  | nil => exact absurd ha List.not_mem_nil
  | cons b l hb ih =>
      rcases List.mem_cons.mp ha with rfl | hl
      · exact ⟨l, .cons a l hb, Nat.lt_succ_self _⟩
      · obtain ⟨k, hk, hlt⟩ := ih hl
        exact ⟨k, hk, Nat.lt_succ_of_lt hlt⟩

/-- **A chain that ends visits no cell twice.** -/
theorem Chain.nodup (h : Chain next p l) : l.Nodup := by
  induction h with
  | nil => exact List.nodup_nil
  | cons a l hl ih =>
      refine List.nodup_cons.mpr ⟨fun ha => ?_, ih⟩
      -- A second visit would start the same chain again, and a shorter one.
      obtain ⟨k, hk, hlt⟩ := hl.rest ha
      have e : a :: k = a :: l := hk.unique (.cons a l hl)
      rw [(List.cons.inj e).2] at hlt
      exact absurd hlt (Nat.lt_irrefl _)

theorem Chain.congr (h : Chain next p l) (he : ∀ a ∈ l, next' a = next a) : Chain next' p l := by
  induction h with
  | nil => exact .nil
  | cons a l _ ih =>
      refine .cons a l ?_
      rw [he a List.mem_cons_self]
      exact ih fun b hb => he b (List.mem_cons_of_mem a hb)

end Chains

/-! ## 2. The heap -/

/-- The contents of the cells (a dead cell keeps its last content), the live addresses, the birth
    of the cell last allocated at an address, the number of allocations, the births of the cells
    deleted, and whether an access has ever hit a dead cell. -/
structure Heap (κ ν : Type*) where
  cell : κ → ν
  live : Finset κ
  birth : κ → ℕ
  allocated : ℕ
  deleted : List ℕ
  fault : Bool

section Heaps

variable {κ ν : Type*}

/-- Nothing is allocated; the memory holds anything. -/
def Heap.empty (memory : κ → ν) : Heap κ ν := ⟨memory, ∅, fun _ => 0, 0, [], false⟩

/-- **No access to a dead cell, and the books balance.** -/
structure Heap.Sound (h : Heap κ ν) : Prop where
  noFault : h.fault = false
  balance : (↑h.deleted : Multiset ℕ) + h.live.val.map h.birth = Multiset.range h.allocated

theorem Heap.sound_empty (memory : κ → ν) : (Heap.empty memory).Sound := ⟨rfl, rfl⟩

variable [DecidableEq κ]

/-- A new cell at address `a`. -/
def Heap.alloc (h : Heap κ ν) (a : κ) (v : ν) : Heap κ ν :=
  { h with
    cell := Function.update h.cell a v
    live := insert a h.live
    birth := Function.update h.birth a h.allocated
    allocated := h.allocated + 1 }

/-- An access to the cell at `a`. -/
def Heap.touch (h : Heap κ ν) (a : κ) : Heap κ ν :=
  { h with fault := h.fault || !decide (a ∈ h.live) }

/-- An access that changes the cell. -/
def Heap.write (h : Heap κ ν) (a : κ) (v : ν) : Heap κ ν :=
  { h.touch a with cell := Function.update h.cell a v }

/-- The cell at `a` is deleted. -/
def Heap.delete (h : Heap κ ν) (a : κ) : Heap κ ν :=
  { h.touch a with live := h.live.erase a, deleted := h.deleted ++ [h.birth a] }

variable {h : Heap κ ν} {a : κ}

theorem Heap.touch_of_live (ha : a ∈ h.live) : h.touch a = h := by
  unfold Heap.touch
  rw [decide_eq_true ha, Bool.not_true, Bool.or_false]

theorem Heap.Sound.alloc (hs : h.Sound) (ha : a ∉ h.live) (v : ν) : (h.alloc a v).Sound where
  noFault := hs.noFault
  balance := by
    show _ + (insert a h.live).val.map (Function.update h.birth a h.allocated) =
      Multiset.range (h.allocated + 1)
    have hold : h.live.val.map (Function.update h.birth a h.allocated) = h.live.val.map h.birth :=
      Multiset.map_congr rfl fun b hb =>
        Function.update_of_ne (fun e => ha (by rw [← e]; exact hb)) _ _
    rw [Finset.insert_val_of_notMem ha, Multiset.map_cons, Function.update_self, hold,
      Multiset.range_succ, ← hs.balance, Multiset.add_cons]
    rfl

theorem Heap.Sound.write (hs : h.Sound) (ha : a ∈ h.live) (v : ν) : (h.write a v).Sound := by
  unfold Heap.write
  rw [touch_of_live ha]
  exact ⟨hs.noFault, hs.balance⟩

theorem Heap.Sound.delete (hs : h.Sound) (ha : a ∈ h.live) : (h.delete a).Sound := by
  unfold Heap.delete
  rw [touch_of_live ha]
  refine ⟨hs.noFault, ?_⟩
  show (↑(h.deleted ++ [h.birth a]) : Multiset ℕ) + (h.live.erase a).val.map h.birth = _
  have hlive : h.live.val = a ::ₘ (h.live.erase a).val := by
    rw [Finset.erase_val]
    exact (Multiset.cons_erase ha).symm
  rw [← hs.balance, hlive, Multiset.map_cons, ← Multiset.coe_add, add_assoc]
  rfl

end Heaps

/-! ## 3. Who holds a cell -/

/-- **Every live cell lies in the chain `l` or is held by exactly one thread.** -/
structure Owned {ι κ : Type*} (holds : ι → Option κ) (live : Finset κ) (l : List κ) : Prop where
  shared : ∀ a ∈ l, a ∈ live
  held : ∀ i a, holds i = some a → a ∈ live ∧ a ∉ l
  apart : ∀ i j a, holds i = some a → holds j = some a → i = j
  accounted : ∀ a ∈ live, a ∈ l ∨ ∃ i, holds i = some a

section Owners

variable {ι κ : Type*} {holds : ι → Option κ} {live : Finset κ} {l : List κ} {i : ι} {a : κ}

theorem owned_empty : Owned (fun _ : ι => (none : Option κ)) ∅ [] where
  shared _ h := absurd h List.not_mem_nil
  held _ _ h := by cases h
  apart _ _ _ h := by cases h
  accounted _ h := absurd h (Finset.notMem_empty _)

/-- A cell in the chain, or held by another thread, is live and not the one that `i` holds. -/
theorem Owned.elsewhere (h : Owned holds live l) (ha : a ∈ l ∨ ∃ j, j ≠ i ∧ holds j = some a) :
    a ∈ live ∧ holds i ≠ some a := by
  rcases ha with ha | ⟨j, hne, ha⟩
  · exact ⟨h.shared a ha, fun e => (h.held i a e).2 ha⟩
  · exact ⟨(h.held j a ha).1, fun e => hne (h.apart j i a ha e)⟩

variable [DecidableEq ι]

/-- Thread `i` holds what it held. -/
theorem Owned.keep (h : Owned holds live l) {x : Option κ} (hi : holds i = x) :
    Owned (Function.update holds i x) live l := by
  rw [← hi, Function.update_eq_self]
  exact h

/-- Thread `i` gets a cell nobody holds. -/
theorem Owned.apart_update (h : Owned holds live l) (ha : ∀ j, holds j ≠ some a) {j k : ι} {b : κ}
    (hj : Function.update holds i (some a) j = some b)
    (hk : Function.update holds i (some a) k = some b) : j = k := by
  by_cases hji : j = i
  · by_cases hki : k = i
    · rw [hji, hki]
    · rw [hji, Function.update_self] at hj
      rw [Function.update_of_ne hki, ← hj] at hk
      exact absurd hk (ha k)
  · by_cases hki : k = i
    · rw [hki, Function.update_self] at hk
      rw [Function.update_of_ne hji, ← hk] at hj
      exact absurd hj (ha j)
    · rw [Function.update_of_ne hji] at hj
      rw [Function.update_of_ne hki] at hk
      exact h.apart j k b hj hk

/-- What a thread other than `i` holds, it holds whatever `i` gets. -/
theorem holds_update (hi : holds i = none) {j : ι} {b : κ} (hj : holds j = some b)
    (x : Option κ) : Function.update holds i x j = some b := by
  have hji : j ≠ i := fun e => by rw [e, hi] at hj; cases hj
  rw [Function.update_of_ne hji]
  exact hj

/-- Once `i` has given its cell away, the other threads hold what they held. -/
theorem Owned.others (h : Owned holds live l) (hi : holds i = some a) {j : ι} {b : κ}
    (hj : Function.update holds i none j = some b) : holds j = some b ∧ b ≠ a := by
  have hji : j ≠ i := fun e => by rw [e, Function.update_self] at hj; cases hj
  rw [Function.update_of_ne hji] at hj
  exact ⟨hj, fun e => hji (h.apart j i a (e ▸ hj) hi)⟩

theorem Owned.take (h : Owned holds live (a :: l)) (hi : holds i = none) (ha : a ∉ l) :
    Owned (Function.update holds i (some a)) live l where
  shared b hb := h.shared b (List.mem_cons_of_mem a hb)
  held j b hj := by
    by_cases hji : j = i
    · rw [hji, Function.update_self] at hj
      cases hj
      exact ⟨h.shared a List.mem_cons_self, ha⟩
    · rw [Function.update_of_ne hji] at hj
      obtain ⟨hb, hbl⟩ := h.held j b hj
      exact ⟨hb, fun hm => hbl (List.mem_cons_of_mem a hm)⟩
  apart j k b hj hk :=
    h.apart_update (fun m hm => (h.held m a hm).2 List.mem_cons_self) hj hk
  accounted b hb := by
    rcases h.accounted b hb with hl | ⟨j, hj⟩
    · rcases List.mem_cons.mp hl with rfl | hl
      · exact .inr ⟨i, Function.update_self _ _ _⟩
      · exact .inl hl
    · exact .inr ⟨j, holds_update hi hj _⟩

theorem Owned.publish (h : Owned holds live l) (hi : holds i = some a) :
    Owned (Function.update holds i none) live (a :: l) where
  shared b hb := by
    rcases List.mem_cons.mp hb with rfl | hb
    · exact (h.held i b hi).1
    · exact h.shared b hb
  held j b hj := by
    obtain ⟨hj, hne⟩ := h.others hi hj
    obtain ⟨hb, hbl⟩ := h.held j b hj
    exact ⟨hb, fun hm => (List.mem_cons.mp hm).elim hne hbl⟩
  apart j k b hj hk := h.apart j k b (h.others hi hj).1 (h.others hi hk).1
  accounted b hb := by
    rcases h.accounted b hb with hl | ⟨j, hj⟩
    · exact .inl (List.mem_cons_of_mem a hl)
    · by_cases hji : j = i
      · rw [hji, hi] at hj
        cases hj
        exact .inl List.mem_cons_self
      · exact .inr ⟨j, by rw [Function.update_of_ne hji]; exact hj⟩

variable [DecidableEq κ]

theorem Owned.acquire (h : Owned holds live l) (hi : holds i = none) (ha : a ∉ live) :
    Owned (Function.update holds i (some a)) (insert a live) l where
  shared b hb := Finset.mem_insert_of_mem (h.shared b hb)
  held j b hj := by
    by_cases hji : j = i
    · rw [hji, Function.update_self] at hj
      cases hj
      exact ⟨Finset.mem_insert_self a live, fun hl => ha (h.shared a hl)⟩
    · rw [Function.update_of_ne hji] at hj
      obtain ⟨hb, hbl⟩ := h.held j b hj
      exact ⟨Finset.mem_insert_of_mem hb, hbl⟩
  apart j k b hj hk := h.apart_update (fun m hm => ha (h.held m a hm).1) hj hk
  accounted b hb := by
    rcases Finset.mem_insert.mp hb with rfl | hb
    · exact .inr ⟨i, Function.update_self _ _ _⟩
    · rcases h.accounted b hb with hl | ⟨j, hj⟩
      · exact .inl hl
      · exact .inr ⟨j, holds_update hi hj _⟩

theorem Owned.release (h : Owned holds live l) (hi : holds i = some a) :
    Owned (Function.update holds i none) (live.erase a) l where
  shared b hb :=
    Finset.mem_erase.mpr ⟨fun e => (h.held i a hi).2 (e ▸ hb), h.shared b hb⟩
  held j b hj := by
    obtain ⟨hj, hne⟩ := h.others hi hj
    obtain ⟨hb, hbl⟩ := h.held j b hj
    exact ⟨Finset.mem_erase.mpr ⟨hne, hb⟩, hbl⟩
  apart j k b hj hk := h.apart j k b (h.others hi hj).1 (h.others hi hk).1
  accounted b hb := by
    obtain ⟨hne, hb⟩ := Finset.mem_erase.mp hb
    rcases h.accounted b hb with hl | ⟨j, hj⟩
    · exact .inl hl
    · refine .inr ⟨j, ?_⟩
      rw [Function.update_of_ne fun e => ?_]
      · exact hj
      · rw [e, hi] at hj
        exact hne (Option.some.inj hj).symm

end Owners

end LinkedHeap
