/-
  File:      HseMultithreading/LockFree/Unreclaimed.lean
  Subject:   `LockFreeSPSCStack` (`lock_free/spsc_stack.cpp`) with any number of pushing and any
             number of popping threads, when no address is handed out twice.

  A popping thread acts on a `next` it has read earlier, from a node another thread may have removed
  and deleted meanwhile. Once linked, a node is never written again: only a push writes, into the
  node it has made, and no push gets an address that was in use before. So an `m_head` that equals
  the node loaded means that the `next` read from it is still its `next`.

  * `StackAction.node?` -- the address a push gets. A run in which they all differ is a run of an
    allocator that never hands out the address of a deleted node; a dead node keeps its content.
  * `LockFreeSPSCStack.Linearized` -- the chain from `m_head` is the abstract stack; every `Pop` has
    returned the top it met; the values pushed are the values taken and those on the stack.
  * `UnreclaimedInv` -- the nodes linked so far, and what each thread relies on about them.
  * **`linearized_unreclaimed`** -- every state of such a run is linearized.
-/
import Mathlib.Data.Finset.Option
import Mathlib.Data.List.ReduceOption
import HseMultithreading.LockFree.Linked

namespace HseMultithreading.LockFree

open StepSystem LinkedHeap

/-! ## 1. What is to be shown -/

section Spec

variable {T : Type*}

/-- The value an exchange puts on the stack. -/
def Exchange.value? : Exchange T → Option T
  | .push value => some value
  | .pop => none

/-- **No value is lost and none is taken twice**: `takes` says which thread took which value, in the
    order of the exchanges; the values pushed are those taken and those on the stack. -/
def Conserved (tops : ℕ → List (Option T)) (exchanges : List (Exchange T)) : Prop :=
  ∃ takes : List (ℕ × T),
    (∀ t, (tops t).reduceOption = (takes.filter fun take => take.1 = t).map Prod.snd) ∧
      (↑(exchanges.filterMap Exchange.value?) : Multiset T) =
        ↑(takes.map Prod.snd) + ↑(abstractStack exchanges)

/-- **The history is one of the abstract stack.** -/
structure LockFreeSPSCStack.Linearized (s : LockFreeSPSCStack T) : Prop where
  chain : ∃ l, Chain s.next s.head l ∧ l.Nodup ∧ l.map s.data = abstractStack s.exchanges
  results : ∀ t, s.results t <+: s.tops t ∧
    (s.tops t).length = (s.results t).length + if (s.threads t).any StackPc.taken then 1 else 0
  conserved : Conserved s.tops s.exchanges

/-- The address a push gets from the allocator. -/
def StackAction.node? : StackAction T → Option ℕ
  | .push _ _ a => some a
  | _ => none

/-! ### Accounts -/

variable {tops : ℕ → List (Option T)} {exchanges : List (Exchange T)}

theorem Conserved.push (h : Conserved tops exchanges) (value : T) :
    Conserved tops (exchanges ++ [.push value]) := by
  obtain ⟨takes, htops, hsum⟩ := h
  refine ⟨takes, htops, ?_⟩
  have hnew : (exchanges ++ [Exchange.push value]).filterMap Exchange.value? =
      exchanges.filterMap Exchange.value? ++ [value] := by
    rw [List.filterMap_append]
    rfl
  rw [hnew, abstractStack_push, ← Multiset.coe_add, hsum, add_assoc,
    add_comm (↑(abstractStack exchanges) : Multiset T)]
  rfl

/-- Thread `t` meets the top of the stack and takes it. -/
theorem Conserved.pop (h : Conserved tops exchanges) (t : ℕ) {value : T} {rest : List T}
    (htop : abstractStack exchanges = value :: rest) :
    Conserved (Function.update tops t (tops t ++ [some value])) (exchanges ++ [.pop]) := by
  obtain ⟨takes, htops, hsum⟩ := h
  refine ⟨takes ++ [(t, value)], fun t' => ?_, ?_⟩
  · rw [List.filter_append, List.map_append, ← htops t']
    by_cases e : t' = t
    · rw [e, Function.update_self, List.reduceOption_append, List.filter_cons_of_pos (by simp)]
      rfl
    · rw [Function.update_of_ne e, List.filter_cons_of_neg (by simpa using Ne.symm e)]
      exact (List.append_nil _).symm
  · have hsame : (exchanges ++ [Exchange.pop]).filterMap Exchange.value? =
        exchanges.filterMap Exchange.value? := by
      rw [List.filterMap_append]
      exact List.append_nil _
    rw [hsame, hsum, abstractStack_pop, htop, List.map_append, ← Multiset.coe_add, add_assoc,
      ← Multiset.cons_coe]
    rfl

/-- Thread `t` meets an empty stack. -/
theorem Conserved.empty (h : Conserved tops exchanges) (t : ℕ) :
    Conserved (Function.update tops t (tops t ++ [none])) exchanges := by
  obtain ⟨takes, htops, hsum⟩ := h
  refine ⟨takes, fun t' => ?_, hsum⟩
  rw [← htops t']
  by_cases e : t' = t
  · rw [e, Function.update_self, List.reduceOption_append]
    exact List.append_nil _
  · rw [Function.update_of_ne e]

end Spec

/-! ## 2. What the threads rely on -/

section Invariant

variable {T : Type*}

/-- The node a push has made and not linked yet. -/
def StackPc.makes : StackPc T → Option ℕ
  | .pushLoad _ a | .pushCas _ a => some a
  | _ => none

def LockFreeSPSCStack.makes (s : LockFreeSPSCStack T) (t : ℕ) : Option ℕ :=
  (s.threads t).bind StackPc.makes

/-- What thread `t` relies on at each point of a call, when `linked` are the nodes linked so far. -/
def LockFreeSPSCStack.Relies (s : LockFreeSPSCStack T) (linked : List ℕ) (t : ℕ) :
    Option (StackPc T) → Prop
  | none | some .popLoad => s.tops t = s.results t
  | some (.pushLoad value a) | some (.pushCas value a) =>
      s.data a = value ∧ s.tops t = s.results t
  | some (.popNext a) => a ∈ linked ∧ s.tops t = s.results t
  | some (.popCas a next) => a ∈ linked ∧ s.next a = next ∧ s.tops t = s.results t
  | some (.popData a) => a ∈ linked ∧ s.tops t = s.results t ++ [some (s.data a)]
  | some (.popDelete _ result) => s.tops t = s.results t ++ [some result]

/-- **The invariant of a run without reuse**: `used` are the addresses handed out, each of them
    linked or still with the push that made it; `l` is the chain. -/
structure UnreclaimedInv (used : Finset ℕ) (s : LockFreeSPSCStack T) (linked l : List ℕ) :
    Prop where
  chain : Chain s.next s.head l
  inside : ∀ a ∈ l, a ∈ linked
  values : l.map s.data = s.stack
  owned : Owned s.makes used linked
  relies : ∀ t, s.Relies linked t (s.threads t)
  conserved : Conserved s.tops s.exchanges

theorem unreclaimedInv_start (memory : ℕ → Node T) : UnreclaimedInv ∅ (.start memory) [] [] where
  chain := .nil
  inside _ h := absurd h List.not_mem_nil
  values := rfl
  owned := owned_empty
  relies _ := rfl
  conserved := ⟨[], fun _ => rfl, rfl⟩

variable {used used' : Finset ℕ} {s s' : LockFreeSPSCStack T} {linked linked' l l' : List ℕ} {t : ℕ}

theorem LockFreeSPSCStack.makes_of {pc : Option (StackPc T)} (hpc : s.threads t = pc) :
    s.makes t = pc.bind StackPc.makes := by
  unfold LockFreeSPSCStack.makes
  rw [hpc]

theorem UnreclaimedInv.represents (h : UnreclaimedInv used s linked l) : s.Represents l :=
  ⟨h.chain, h.values⟩

/-- A thread keeps what it relies on as long as the linked nodes and its own are left alone. -/
theorem LockFreeSPSCStack.Relies.frame {pc : Option (StackPc T)} (h : s.Relies linked t pc)
    (htops : s'.tops t = s.tops t) (hres : s'.results t = s.results t)
    (hcell : ∀ a, a ∈ linked ∨ pc.bind StackPc.makes = some a → s'.heap.cell a = s.heap.cell a)
    (hl : ∀ a ∈ linked, a ∈ linked') : s'.Relies linked' t pc := by
  have hdata : ∀ a, a ∈ linked ∨ pc.bind StackPc.makes = some a → s'.data a = s.data a :=
    fun a ha => congrArg Node.data (hcell a ha)
  cases pc with
  | none => exact htops.trans (Eq.trans h hres.symm)
  | some pc =>
      cases pc with
      | pushLoad value a | pushCas value a =>
          exact ⟨(hdata a (.inr rfl)).trans h.1, htops.trans (h.2.trans hres.symm)⟩
      | popLoad => exact htops.trans (Eq.trans h hres.symm)
      | popNext a => exact ⟨hl a h.1, htops.trans (h.2.trans hres.symm)⟩
      | popCas a next =>
          have e : s'.next a = s.next a := congrArg Node.next (hcell a (.inl h.1))
          exact ⟨hl a h.1, e.trans h.2.1, htops.trans (h.2.2.trans hres.symm)⟩
      | popData a =>
          refine ⟨hl a h.1, ?_⟩
          rw [htops, hres, hdata a (.inl h.1)]
          exact h.2
      | popDelete a result =>
          show s'.tops t = s'.results t ++ [some result]
          rw [htops, hres]
          exact h

/-- **A step of thread `t`**: what it changes is checked; the others keep what they rely on. -/
theorem UnreclaimedInv.of_step (h : UnreclaimedInv used s linked l) (new : Option (StackPc T))
    (hthr : s'.threads = Function.update s.threads t new)
    (hrep : s'.Represents l') (hinside : ∀ a ∈ l', a ∈ linked')
    (howned : Owned (Function.update s.makes t (new.bind StackPc.makes)) used' linked')
    (hcell : ∀ a, a ∈ linked ∨ (∃ t', t' ≠ t ∧ s.makes t' = some a) →
      s'.heap.cell a = s.heap.cell a)
    (hl : ∀ a ∈ linked, a ∈ linked')
    (hobs : ∀ t', t' ≠ t → s'.tops t' = s.tops t' ∧ s'.results t' = s.results t')
    (hself : s'.Relies linked' t new) (hconserved : Conserved s'.tops s'.exchanges) :
    UnreclaimedInv used' s' linked' l' where
  chain := hrep.chain
  inside := hinside
  values := hrep.values
  owned := by
    have hmakes : s'.makes = Function.update s.makes t (new.bind StackPc.makes) := by
      funext t'
      unfold LockFreeSPSCStack.makes
      rw [hthr]
      exact Function.apply_update (fun _ pc => Option.bind pc StackPc.makes) s.threads t new t'
    rw [hmakes]
    exact howned
  relies t' := by
    rw [hthr]
    by_cases ht : t' = t
    · rw [ht, Function.update_self]
      exact hself
    · rw [Function.update_of_ne ht]
      refine (h.relies t').frame (hobs t' ht).1 (hobs t' ht).2 (fun a ha => hcell a ?_) hl
      exact ha.imp_right fun ha => ⟨t', ht, ha⟩
  conserved := hconserved

/-! ### Steps of a push -/

/-- `new Node`, at an address that was never handed out. -/
theorem UnreclaimedInv.newNode (h : UnreclaimedInv used s linked l) (hpc : s.threads t = none)
    {a : ℕ} (ha : a ∉ used) (value : T) :
    UnreclaimedInv (insert a used)
      ({ s with heap := s.heap.alloc a ⟨value, none⟩ }.goto t (.pushLoad value a)) linked l := by
  have hcell : ∀ b, b ∈ linked ∨ (∃ t', t' ≠ t ∧ s.makes t' = some b) →
      Function.update s.heap.cell a ⟨value, none⟩ b = s.heap.cell b := by
    intro b hb
    have hne : b ≠ a := fun e => ha (e ▸ (h.owned.elsewhere hb).1)
    exact Function.update_of_ne hne _ _
  have hrelies := h.relies t
  rw [hpc] at hrelies
  refine h.of_step (some (.pushLoad value a)) rfl
    (h.represents.frame rfl rfl fun b hb => hcell b (.inl (h.inside b hb))) h.inside
    (h.owned.acquire (LockFreeSPSCStack.makes_of hpc) ha) hcell (fun _ hb => hb)
    (fun _ _ => ⟨rfl, rfl⟩) ⟨?_, hrelies⟩ h.conserved
  show (Function.update s.heap.cell a ⟨value, none⟩ a).data = value
  rw [Function.update_self]

/-- A push stores `m_head` into the `next` of its node. -/
theorem UnreclaimedInv.relinked (h : UnreclaimedInv used s linked l) {pc : StackPc T} {a : ℕ}
    {value : T} (hpc : s.threads t = some pc) (hmakes : pc.makes = some a)
    (hdata : s.data a = value) (hobs : s.tops t = s.results t) :
    UnreclaimedInv used ({ s with heap := s.relink a }.goto t (.pushCas value a)) linked l := by
  have hmine : s.makes t = some a := (LockFreeSPSCStack.makes_of hpc).trans hmakes
  have hcell : ∀ b, b ∈ linked ∨ (∃ t', t' ≠ t ∧ s.makes t' = some b) →
      (s.relink a).cell b = s.heap.cell b := by
    intro b hb
    have hne : b ≠ a := fun e => (h.owned.elsewhere hb).2 (e ▸ hmine)
    exact Function.update_of_ne hne _ _
  refine h.of_step (some (.pushCas value a)) rfl
    (h.represents.frame rfl rfl fun b hb => hcell b (.inl (h.inside b hb))) h.inside
    (h.owned.keep hmine) hcell (fun _ hb => hb) (fun _ _ => ⟨rfl, rfl⟩) ⟨?_, hobs⟩ h.conserved
  show (Function.update s.heap.cell a { s.heap.cell a with next := s.head } a).data = value
  rw [Function.update_self]
  exact hdata

/-- A push links its node: `m_head` is still what the node's `next` says. -/
theorem UnreclaimedInv.linked_node (h : UnreclaimedInv used s linked l) {a : ℕ} {value : T}
    (hpc : s.threads t = some (.pushCas value a)) (hhead : s.head = s.next a) :
    UnreclaimedInv used ({ s with
      heap := s.heap.touch a
      head := some a
      exchanges := s.exchanges ++ [Exchange.push value] }.leave t) (a :: linked) (a :: l) := by
  have hmine : s.makes t = some a := LockFreeSPSCStack.makes_of hpc
  have hrelies := h.relies t
  rw [hpc] at hrelies
  obtain ⟨rfl, hobs⟩ := hrelies
  refine h.of_step none rfl (h.represents.push hhead rfl rfl rfl) ?_ (h.owned.publish hmine)
    (fun _ _ => rfl) (fun _ hb => List.mem_cons_of_mem a hb) (fun _ _ => ⟨rfl, rfl⟩) hobs
    (h.conserved.push _)
  intro b hb
  rcases List.mem_cons.mp hb with rfl | hb
  · exact List.mem_cons_self
  · exact List.mem_cons_of_mem a (h.inside b hb)

/-! ### Steps of a pop -/

/-- Thread `t` moves on without a change to the chain; what it touches may be dead. -/
theorem UnreclaimedInv.moves (h : UnreclaimedInv used s linked l) (a : ℕ) (new : StackPc T)
    (hmakes : s.makes t = new.makes) (hself : s.Relies linked t (some new)) :
    UnreclaimedInv used ({ s with heap := s.heap.touch a }.goto t new) linked l := by
  refine h.of_step (some new) rfl ⟨h.chain, h.values⟩ h.inside (h.owned.keep hmakes)
    (fun _ _ => rfl) (fun _ hb => hb) (fun _ _ => ⟨rfl, rfl⟩) ?_ h.conserved
  cases new <;> exact hself

/-- The pop has a new `oldHead`. -/
theorem UnreclaimedInv.observed (h : UnreclaimedInv used s linked l) (hmakes : s.makes t = none)
    (hobs : s.tops t = s.results t) : UnreclaimedInv used (s.observe t) linked l := by
  cases hhead : s.head with
  | none =>
      have hempty := h.represents.stack_eq_nil hhead
      rw [LockFreeSPSCStack.observe_none hhead]
      refine h.of_step none rfl ⟨h.chain, h.values⟩ h.inside (h.owned.keep hmakes) (fun _ _ => rfl)
        (fun _ hb => hb)
        (fun t' ht => ⟨Function.update_of_ne ht _ _, Function.update_of_ne ht _ _⟩) ?_ ?_
      · show Function.update s.tops t (s.tops t ++ [s.stack.head?]) t =
          Function.update s.results t (s.results t ++ [none]) t
        rw [Function.update_self, Function.update_self, hempty, hobs]
        rfl
      · show Conserved (Function.update s.tops t (s.tops t ++ [s.stack.head?])) s.exchanges
        rw [hempty]
        exact h.conserved.empty t
  | some a =>
      obtain ⟨k, rfl, -⟩ := h.represents.top hhead
      rw [LockFreeSPSCStack.observe_some hhead]
      exact h.of_step (some (.popNext a)) rfl ⟨h.chain, h.values⟩ h.inside (h.owned.keep hmakes)
        (fun _ _ => rfl) (fun _ hb => hb) (fun _ _ => ⟨rfl, rfl⟩)
        ⟨h.inside a List.mem_cons_self, hobs⟩ h.conserved

/-- The pop unlinks the node at `m_head`; its `next` is what the pop has read. -/
theorem UnreclaimedInv.unlinked (h : UnreclaimedInv used s linked l) {a : ℕ} {next : Option ℕ}
    (hpc : s.threads t = some (.popCas a next)) (hhead : s.head = some a) :
    ∃ l', UnreclaimedInv used ({ s.linearise t with
      head := next
      exchanges := s.exchanges ++ [Exchange.pop] }.goto t (.popData a)) linked l' := by
  have hrelies := h.relies t
  rw [hpc] at hrelies
  obtain ⟨ha, hnext, hobs⟩ := hrelies
  obtain ⟨k, rfl, hk, hstack⟩ := h.represents.top hhead
  have hmakes : s.makes t = none := LockFreeSPSCStack.makes_of hpc
  refine ⟨k, h.of_step (some (.popData a)) rfl (.pop (hnext ▸ hk) hstack rfl rfl)
    (fun b hb => h.inside b (List.mem_cons_of_mem a hb)) (h.owned.keep hmakes) (fun _ _ => rfl)
    (fun _ hb => hb) (fun t' ht => ⟨Function.update_of_ne ht _ _, rfl⟩) ⟨ha, ?_⟩ ?_⟩
  · show Function.update s.tops t (s.tops t ++ [s.stack.head?]) t = s.results t ++ [some (s.data a)]
    rw [Function.update_self, hobs, hstack]
    rfl
  · show Conserved (Function.update s.tops t (s.tops t ++ [s.stack.head?])) _
    rw [hstack]
    exact h.conserved.pop t hstack

/-- The pop deletes its node and returns; the content of the node stays. -/
theorem UnreclaimedInv.deleted (h : UnreclaimedInv used s linked l) {a : ℕ} {result : T}
    (hpc : s.threads t = some (.popDelete a result)) :
    UnreclaimedInv used ({ s with heap := s.heap.delete a }.answer t (some result)) linked l := by
  have hrelies := h.relies t
  rw [hpc] at hrelies
  have hmakes : s.makes t = none := LockFreeSPSCStack.makes_of hpc
  refine h.of_step none rfl ⟨h.chain, h.values⟩ h.inside (h.owned.keep hmakes) (fun _ _ => rfl)
    (fun _ hb => hb) (fun t' ht => ⟨rfl, Function.update_of_ne ht _ _⟩) ?_ h.conserved
  show s.tops t = Function.update s.results t (s.results t ++ [some result]) t
  rw [Function.update_self]
  exact hrelies

/-! ### Steps and runs -/

/-- **Every step of a call keeps the invariant.** -/
theorem UnreclaimedInv.advance (h : UnreclaimedInv used s linked l) (spurious : Bool)
    {pc : StackPc T} (hpc : s.threads t = some pc) :
    ∃ linked' l', UnreclaimedInv used (s.advance t spurious pc) linked' l' := by
  have hrelies := h.relies t
  rw [hpc] at hrelies
  have hmakes : s.makes t = pc.makes := LockFreeSPSCStack.makes_of hpc
  cases pc with
  | pushLoad value a => exact ⟨linked, l, h.relinked hpc rfl hrelies.1 hrelies.2⟩
  | pushCas value a =>
      simp only [LockFreeSPSCStack.advance]
      split
      next hcas => exact ⟨a :: linked, a :: l, h.linked_node hpc hcas.1⟩
      next => exact ⟨linked, l, h.relinked hpc rfl hrelies.1 hrelies.2⟩
  | popLoad => exact ⟨linked, l, h.observed hmakes hrelies⟩
  | popNext a =>
      obtain ⟨ha, hobs⟩ := hrelies
      exact ⟨linked, l, h.moves a (.popCas a (s.next a)) hmakes ⟨ha, rfl, hobs⟩⟩
  | popCas a next =>
      simp only [LockFreeSPSCStack.advance]
      split
      next hcas => exact ⟨linked, h.unlinked hpc hcas.1⟩
      next => exact ⟨linked, l, h.observed hmakes hrelies.2.2⟩
  | popData a => exact ⟨linked, l, h.moves a (.popDelete a (s.data a)) hmakes hrelies.2⟩
  | popDelete a result => exact ⟨linked, l, h.deleted hpc⟩

/-- A step that does not get an address from the allocator, or gets one for the first time. -/
theorem UnreclaimedInv.step (h : UnreclaimedInv used s linked l) {a : StackAction T}
    (hfresh : ∀ node, a.node? = some node → node ∉ used) (hs : s.step a = some s') :
    ∃ linked' l', UnreclaimedInv (used ∪ a.node?.toFinset) s' linked' l' := by
  obtain ⟨t, value, node, rfl, hpc, -, rfl⟩ | ⟨t, rfl, hpc, rfl⟩ |
    ⟨t, spurious, pc, rfl, hpc, rfl⟩ := LockFreeSPSCStack.step_cases hs
  · rw [StackAction.node?, Option.toFinset_some, Finset.union_comm, ← Finset.insert_eq]
    exact ⟨linked, l, h.newNode hpc (hfresh node rfl) value⟩
  · show ∃ linked' l', UnreclaimedInv (used ∪ ∅) _ linked' l'
    rw [Finset.union_empty]
    have hrelies := h.relies t
    rw [hpc] at hrelies
    have hmakes : s.makes t = none := LockFreeSPSCStack.makes_of hpc
    exact ⟨linked, l, h.of_step (some .popLoad) rfl ⟨h.chain, h.values⟩ h.inside
      (h.owned.keep hmakes) (fun _ _ => rfl) (fun _ hb => hb) (fun _ _ => ⟨rfl, rfl⟩) hrelies
      h.conserved⟩
  · show ∃ linked' l', UnreclaimedInv (used ∪ ∅) _ linked' l'
    rw [Finset.union_empty]
    exact h.advance spurious hpc

/-- **A run that gets every address once keeps the invariant.** -/
theorem UnreclaimedInv.run {as : List (StackAction T)} (h : UnreclaimedInv used s linked l)
    (hdistinct : (as.filterMap StackAction.node?).Nodup)
    (hfresh : ∀ node ∈ as.filterMap StackAction.node?, node ∉ used)
    (hrun : StepSystem.run LockFreeSPSCStack.step s as = some s') :
    ∃ used' linked' l', UnreclaimedInv used' s' linked' l' := by
  induction as generalizing used s linked l with
  | nil =>
      obtain rfl : s = s' := Option.some.inj hrun
      exact ⟨used, linked, l, h⟩
  | cons a as ih =>
      obtain ⟨r, hr, hrun⟩ := Option.bind_eq_some_iff.mp hrun
      have hsplit : (a :: as).filterMap StackAction.node? =
          a.node?.toList ++ as.filterMap StackAction.node? := by
        cases hnode : a.node? <;> simp [hnode]
      rw [hsplit] at hdistinct hfresh
      obtain ⟨-, hrest, hapart⟩ := List.nodup_append.mp hdistinct
      obtain ⟨linked', l', h'⟩ := h.step (fun node hnode => hfresh node
        (List.mem_append_left _ (Option.mem_toList.mpr hnode))) hr
      refine ih h' hrest (fun node hnode hused => ?_) hrun
      rcases Finset.mem_union.mp hused with hused | hused
      · exact hfresh node (List.mem_append_right _ hnode) hused
      · have hthis := Option.mem_toList.mpr (Option.mem_toFinset.mp hused)
        exact hapart node hthis node hnode rfl

end Invariant

/-! ## 3. Every history is one of the abstract stack -/

section Main

variable {T : Type*}

theorem UnreclaimedInv.results {used : Finset ℕ} {s : LockFreeSPSCStack T} {linked l : List ℕ}
    (h : UnreclaimedInv used s linked l) (t : ℕ) :
    s.results t <+: s.tops t ∧
      (s.tops t).length =
        (s.results t).length + if (s.threads t).any StackPc.taken then 1 else 0 := by
  have hrelies := h.relies t
  cases hpc : s.threads t with
  | none => rw [hpc] at hrelies; exact answered hrelies
  | some pc =>
      rw [hpc] at hrelies
      cases pc with
      | pushLoad value a | pushCas value a => exact answered hrelies.2
      | popLoad => exact answered hrelies
      | popNext a => exact answered hrelies.2
      | popCas a next => exact answered hrelies.2.2
      | popData a => exact unanswered hrelies.2
      | popDelete a result => exact unanswered hrelies

/-- **The stack is linearizable for any number of pushing and popping threads**, in every
    interleaving in which no address is handed out twice. -/
theorem linearized_unreclaimed (memory : ℕ → Node T) {as : List (StackAction T)}
    {s : LockFreeSPSCStack T} (hdistinct : (as.filterMap StackAction.node?).Nodup)
    (hrun : run LockFreeSPSCStack.step (.start memory) as = some s) : s.Linearized := by
  obtain ⟨used, linked, l, h⟩ := (unreclaimedInv_start memory).run hdistinct
    (fun _ _ => Finset.notMem_empty _) hrun
  exact
    { chain := ⟨l, h.chain, h.chain.nodup, h.values⟩
      results := h.results
      conserved := h.conserved }

/-- Thread 0 has loaded the node at 4; thread 3 pops it and deletes it; thread 0 reads the `next` of
    the dead node, fails at its exchange and takes the node below. -/
def raced : List (StackAction ℕ) :=
  [.push 1 5 3, .advance 1 false, .advance 1 false, .push 2 6 4, .advance 2 false, .advance 2 false,
   .pop 0, .advance 0 false,
   .pop 3, .advance 3 false, .advance 3 false, .advance 3 false, .advance 3 false, .advance 3 false,
   .advance 0 false, .advance 0 false, .advance 0 false, .advance 0 false, .advance 0 false,
   .advance 0 false]

theorem linearized_unreclaimed_raced :
    ∃ s : LockFreeSPSCStack ℕ,
      run LockFreeSPSCStack.step (.start fun _ => ⟨0, none⟩) raced = some s ∧
      s.heap.fault = true ∧ s.results 0 = [some 5] ∧ s.results 3 = [some 6] ∧ s.Linearized := by
  have hp : (run LockFreeSPSCStack.step (.start fun _ => ⟨0, none⟩) raced).map
      (fun s => decide (s.heap.fault = true ∧ s.results 0 = [some 5] ∧ s.results 3 = [some 6])) =
      some true := by decide +kernel
  obtain ⟨s, hs, hp⟩ := Option.map_eq_some_iff.mp hp
  obtain ⟨hfault, hzero, hthree⟩ := of_decide_eq_true hp
  exact ⟨s, hs, hfault, hzero, hthree, linearized_unreclaimed _ (by decide) hs⟩

end Main

end HseMultithreading.LockFree
