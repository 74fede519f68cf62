/-
  File:      HseMultithreading/Hw4/Mailboxes.lean
  Subject:   WHAT THE TWO PROGRAMS ARE FOR: a user starts producers and consumers one after the
             other, with any arguments, and reads what they print.

  * `Mailboxes` -- under each file a box of sixteen holes in a ring. A producer leaves two notes,
    a consumer takes notes until it finds a hole empty, and then takes the box away. A producer that
    finds its hole taken is refused, and the hole is passed over.
  * `Depicts` -- the queue of a box. Of the memory only the slots that are READY, the notes in them
    and the two indices modulo 16 tell in what is printed.
  * `Serves` -- how a machine stands for boxes; `producer_refines`, `consumer_refines` -- one run.
  * **`session_refines_mailboxes`** -- every session of runs shows exactly what the boxes show, and
    leaves no descriptor and no mapping behind. The clean-up of a consumer may fail; the next
    programs then find the box as the consumer has left it.
  * **`producers_then_consumer`** -- any number of producers and a consumer: eight producers get
    through, the others fail on the NUMBER, and the consumer prints the messages of these eight.
-/
import HseMultithreading.Hw4.Cleanup
import HseMultithreading.Hw4.Programs

namespace HseMultithreading.Hw4

open Posix

/-! ## 1. The boxes -/

/-- The two notes of a producer. -/
inductive Note where
  | number
  | text
  deriving DecidableEq

/-- What a consumer prints of a note. -/
def Note.line : Note → Line
  | .number => .loop .skipped
  | .text => .loop (.received (some textBytes.dropLast))

/-- **A box**: the holes, the one a consumer looks into next and the one of the next push. -/
structure Box where
  holes : Fin queueCapacity → Option Note
  read : Fin queueCapacity
  write : Fin queueCapacity

/-- The next hole in the ring. -/
def nextHole (i : Fin queueCapacity) : Fin queueCapacity :=
  ⟨(i.val + 1) % queueCapacity, Nat.mod_lt _ i.pos⟩

def Box.new : Box := ⟨fun _ => none, getSlot 0, getSlot 0⟩

/-- A note is left, or its hole is passed over. -/
def Box.push (b : Box) (x : Note) : Box × Bool :=
  match b.holes b.write with
  | none =>
    ({ b with holes := Function.update b.holes b.write (some x), write := nextHole b.write }, true)
  | some _ => ({ b with write := nextHole b.write }, false)

/-- A producer at a box. -/
def Box.produce (b : Box) (wasCreated : Bool) (size : UInt64) : Box × Shown :=
  match b.push .number with
  | (b, false) => (b, .failure "Failed to push NUMBER message")
  | (b, true) =>
    match b.push .text with
    | (b, false) => (b, .failure "Failed to push TEXT message")
    | (b, true) => (b, producerReport wasCreated size)

/-- Notes are taken from one hole after the other, at most `fuel` of them. -/
def Box.take : ℕ → Box → Box × List Note
  | 0, b => (b, [])
  | fuel + 1, b =>
    match b.holes b.read with
    | none => (b, [])
    | some x =>
      let (b, notes) := Box.take fuel
        { b with holes := Function.update b.holes b.read none, read := nextHole b.read }
      (b, x :: notes)

/-- What a consumer with these notes shows. -/
def notesReport (notes : List Note) (size : UInt64) (cleanedUp : Bool) : Shown :=
  ⟨0, notes.map Note.line ++
    consumerReport (notes.count .text) (notes.count .number) size cleanedUp, []⟩

/-- Under each file of the shared memory, the box that was put up there. -/
abbrev Mailboxes := String → Option Box

/-- What a program without shared memory shows. -/
def Program.refused : Program → Shown
  | .producer => .failure "Failed to create or open shared memory"
  | .consumer => .failure "Failed to open shared memory"

/-- A run at the boxes; without shared memory it has no effect. -/
def Mailboxes.exec (b : Mailboxes) (c : Command) (granted : Bool) : Mailboxes × Shown :=
  match queueSize c.args, shmArg c.args, granted with
  | none, _, _ => (b, .failure "Queue size is too small")
  | some size, some file, true =>
    match c.program, b file with
    | .producer, none =>
      let (box, shown) := Box.new.produce true size
      (Function.update b file (some box), shown)
    | .producer, some box =>
      let (box, shown) := box.produce false size
      (Function.update b file (some box), shown)
    | .consumer, some box =>
      let (box, notes) := box.take (queueCapacity + 1)
      (Function.update b file (if c.unlinks then none else some box),
        notesReport notes size c.unlinks)
    | .consumer, none => (b, c.program.refused)
  | some _, _, _ => (b, c.program.refused)

def Mailboxes.session : Mailboxes → List (Command × Bool) → Mailboxes × List Shown
  | b, [] => (b, [])
  | b, c :: cs =>
    let (b, shown) := b.exec c.1 c.2
    let (b, rest) := Mailboxes.session b cs
    (b, shown :: rest)

/-- No boxes. -/
def Mailboxes.empty : Mailboxes := fun _ => none

/-! ## 2. The queue of a box -/

/-- The arguments of the two pushes behind the guards. -/
def numberJob : PushJob := ⟨MessageType.number.code, fun j => numberBytes.getD j 0, 4, by decide⟩

def textJob : PushJob := ⟨MessageType.text.code, fun j => textBytes.getD j 0, 20, by decide⟩

def Note.args : Note → PushArgs
  | .number => pushNumber
  | .text => pushText

def Note.job : Note → PushJob
  | .number => numberJob
  | .text => textJob

theorem guard_args (x : Note) : x.args.guard = some x.job := by
  cases x <;> rfl

/-- What a slot is in when its hole has this note or none. -/
def MessageSlot.Has (slot : MessageSlot) : Option Note → Prop
  | none => slot.state = SlotState.empty.code
  | some x => slot.state = SlotState.ready.code ∧ slot.message = x.job.message

/-- **The queue of a box.** -/
structure Depicts (q : SharedQueueLayout) (b : Box) : Prop where
  valid : isQueueValid q = true
  read : getSlot q.readIndex = b.read
  write : getSlot q.writeIndex = b.write
  holes : ∀ i, (q.slots i).Has (b.holes i)

section Queue

variable {q : SharedQueueLayout} {b : Box}

theorem getSlot_succ (index : UInt64) : getSlot (index + 1) = nextHole (getSlot index) := by
  apply Fin.ext
  show (index + 1).toNat % 16 = (index.toNat % 16 + 1) % 16
  rw [UInt64.toNat_add, UInt64.toNat_one]
  omega

theorem isQueueValid_push (q : SharedQueueLayout) (a : PushArgs) :
    isQueueValid (tryPushMessage q a).1 = isQueueValid q := by
  unfold isQueueValid
  rw [queueMeta_push]

theorem readIndex_push (q : SharedQueueLayout) (a : PushArgs) :
    (tryPushMessage q a).1.readIndex = q.readIndex := by
  unfold tryPushMessage
  split
  · rfl
  · simp only
    split <;> rfl

theorem depicts_new (q : SharedQueueLayout) : Depicts (initQueue q) .new :=
  ⟨isQueueValid_initQueue q, rfl, rfl, fun _ => rfl⟩

/-- A slot and its hole get new contents. -/
theorem has_update {i : Fin queueCapacity} {slot : MessageSlot} {x : Option Note}
    (h : ∀ j, (q.slots j).Has (b.holes j)) (hi : slot.Has x) (j : Fin queueCapacity) :
    ((q.setSlot i slot).slots j).Has (Function.update b.holes i x j) := by
  by_cases e : j = i
  · rw [e, setSlot_slots_self, Function.update_self]
    exact hi
  · rw [setSlot_slots_of_ne _ _ _ e, Function.update_of_ne e]
    exact h j

/-- **A push at the queue is one at the box.** -/
theorem Depicts.push (h : Depicts q b) (x : Note) :
    (tryPushMessage q x.args).2 = (b.push x).2 ∧
      Depicts (tryPushMessage q x.args).1 (b.push x).1 := by
  have hvalid := (isQueueValid_push q x.args).trans h.valid
  have hread := (congrArg getSlot (readIndex_push q x.args)).trans h.read
  have hwrite : getSlot (q.writeIndex + 1) = nextHole b.write := by rw [getSlot_succ, h.write]
  have hslot := h.holes (getSlot q.writeIndex)
  cases hhole : b.holes b.write with
  | none =>
      rw [h.write, hhole] at hslot
      rw [tryPushMessage_accepted (guard_args x) (by rw [h.write]; exact hslot)] at hvalid hread ⊢
      simp only [Box.push, hhole]
      refine ⟨trivial, hvalid, hread, hwrite, ?_⟩
      rw [h.write]
      exact has_update (q := { q with writeIndex := q.writeIndex + 1 }) h.holes
        ⟨rfl, x.job.message_fill _⟩
  | some y =>
      rw [h.write, hhole] at hslot
      have hready : (q.slots (getSlot q.writeIndex)).state ≠ SlotState.empty.code := by
        rw [h.write, hslot.1]
        decide
      rw [tryPushMessage_occupied (guard_args x) hready] at hvalid hread ⊢
      simp only [Box.push, hhole]
      exact ⟨trivial, hvalid, hread, hwrite, h.holes⟩

/-- **A producer at the queue is one at the box**, put up before or by itself. -/
theorem Depicts.produce {q₀ : SharedQueueLayout} (h : Depicts q b) (wasCreated : Bool)
    (hq : (if wasCreated then initQueue q₀ else q₀) = q) (size : UInt64) :
    (Hw4.produce q₀ wasCreated size).2 = (b.produce wasCreated size).2 ∧
      Depicts (Hw4.produce q₀ wasCreated size).1 (b.produce wasCreated size).1 ∧
      (Hw4.produce q₀ wasCreated size).1.readIndex = q.readIndex := by
  obtain ⟨hnumber, h₁⟩ := h.push .number
  have hr₁ := readIndex_push q pushNumber
  unfold Hw4.produce Box.produce
  simp only [hq, h.valid, Bool.true_eq_false, if_false]
  rcases hn : tryPushMessage q pushNumber with ⟨q₁, done₁⟩
  rcases hb : b.push .number with ⟨b₁, done₁'⟩
  simp only [Note.args, hn, hb] at hnumber h₁ hr₁
  obtain rfl : done₁ = done₁' := hnumber
  cases done₁ with
  | false => exact ⟨rfl, h₁, hr₁⟩
  | true =>
      obtain ⟨htext, h₂⟩ := h₁.push .text
      have hr₂ := readIndex_push q₁ pushText
      rcases ht : tryPushMessage q₁ pushText with ⟨q₂, done₂⟩
      rcases hb₂ : b₁.push .text with ⟨b₂, done₂'⟩
      simp only [Note.args, ht, hb₂] at htext h₂ hr₂
      obtain rfl : done₂ = done₂' := htext
      simp only [ht, hb₂]
      cases done₂ with
      | false => exact ⟨rfl, h₂, hr₂.trans hr₁⟩
      | true => exact ⟨rfl, h₂, hr₂.trans hr₁⟩

theorem line_job (x : Note) : Line.loop x.job.message.line = x.line := by
  cases x <;> decide

theorem countP_job (x : Note) :
    [x.job.message].countP Wanted.consumer.wants = [x].count .text ∧
      ([x.job.message].countP fun m => !Wanted.consumer.wants m) = [x].count .number := by
  cases x <;> decide

section Iterate

variable {s : Consumer} {b : Box}

/-- An iteration at an empty hole ends the loop. -/
theorem Depicts.iterate_none (h : Depicts s.queue b) (hhole : b.holes b.read = none) :
    s.iterate .consumer = { s with running := false, calls := s.calls ++ [s.kept] } := by
  have hslot := h.holes (getSlot s.queue.readIndex)
  rw [h.read, hhole] at hslot
  apply iterate_unready
  unfold Consumer.slot
  rw [h.read, show (s.queue.slots b.read).state = SlotState.empty.code from hslot]
  decide

/-- **An iteration at a note takes the note**: it is shown and counted, and its hole is empty. -/
theorem Depicts.iterate_some (h : Depicts s.queue b) {x : Note} (hhole : b.holes b.read = some x)
    (hindex : s.queue.readIndex.toNat + 1 < 2 ^ 64) :
    (s.iterate .consumer).running = s.running ∧
      Depicts (s.iterate .consumer).queue
        { b with holes := Function.update b.holes b.read none, read := nextHole b.read } ∧
      (s.iterate .consumer).queue.readIndex.toNat = s.queue.readIndex.toNat + 1 ∧
      (s.iterate .consumer).output.map Line.loop = s.output.map Line.loop ++ [x.line] ∧
      (s.iterate .consumer).receivedTextCount = s.receivedTextCount + [x].count .text ∧
      (s.iterate .consumer).skippedCount = s.skippedCount + [x].count .number := by
  have hslot := h.holes (getSlot s.queue.readIndex)
  rw [h.read, hhole] at hslot
  have hend : Wanted.consumer.wants x.job.message = true → 0 ∈ x.job.message.bytes := by
    cases x <;> decide
  have hfits : x.job.message.length.toNat ≤ maxPayloadSize := by cases x <;> decide
  obtain ⟨hrun, hqueue, hout, hreceived, hskipped⟩ := iterate_ready
    (by unfold Consumer.slot; rw [h.read]; exact hslot.1)
    (by unfold Consumer.slot; rw [h.read]; exact hslot.2) hfits hindex hend
  rw [(countP_job x).1] at hreceived
  rw [(countP_job x).2] at hskipped
  refine ⟨hrun, ?_, ?_, ?_, hreceived, hskipped⟩
  · rw [hqueue]
    refine ⟨h.valid, ?_, h.write, ?_⟩
    · show getSlot (s.queue.readIndex + 1) = nextHole b.read
      rw [getSlot_succ, h.read]
    · show ∀ j, ((s.queue.setSlot (getSlot s.queue.readIndex) .cleared).slots j).Has _
      rw [h.read]
      exact has_update (b := b) h.holes rfl
  · rw [hqueue]
    show (s.queue.readIndex + 1).toNat = _
    rw [UInt64.toNat_add, UInt64.toNat_one]
    omega
  · rw [hout, List.map_append, List.map_singleton, line_job]

end Iterate

/-- The loop of the consumer at the queue takes the notes of the box. -/
theorem Depicts.loop : ∀ (fuel : ℕ) {s : Consumer} {b : Box}, Depicts s.queue b →
    s.running = true → s.queue.readIndex.toNat + fuel < 2 ^ 64 →
    Depicts (Consumer.loop .consumer fuel s).queue (b.take fuel).1 ∧
      (Consumer.loop .consumer fuel s).queue.readIndex.toNat ≤ s.queue.readIndex.toNat + fuel ∧
      (Consumer.loop .consumer fuel s).output.map Line.loop =
        s.output.map Line.loop ++ (b.take fuel).2.map Note.line ∧
      (Consumer.loop .consumer fuel s).receivedTextCount =
        s.receivedTextCount + (b.take fuel).2.count .text ∧
      (Consumer.loop .consumer fuel s).skippedCount =
        s.skippedCount + (b.take fuel).2.count .number := by
  intro fuel
  induction fuel with
  | zero =>
      intro s b h _ _
      simp only [Consumer.loop, Box.take]
      exact ⟨h, Nat.le_refl _, by simp, by simp, by simp⟩
  | succ fuel ih =>
      intro s b h hrun hindex
      unfold Consumer.loop
      rw [if_pos hrun]
      cases hhole : b.holes b.read with
      | none =>
          rw [h.iterate_none hhole, loop_of_stopped rfl]
          simp only [Box.take, hhole]
          exact ⟨h, Nat.le_add_right _ _, by simp, by simp, by simp⟩
      | some x =>
          obtain ⟨hrun', hdepicts, hindex', hout, hreceived, hskipped⟩ :=
            h.iterate_some hhole (by omega)
          obtain ⟨hm, hle, hout', hreceived', hskipped'⟩ :=
            ih hdepicts (hrun'.trans hrun) (by omega)
          simp only [Box.take, hhole]
          refine ⟨hm, by omega, ?_, ?_, ?_⟩
          · rw [hout', hout, List.append_assoc]
            rfl
          · rw [hreceived', hreceived, Nat.add_assoc, ← List.count_append]
            rfl
          · rw [hskipped', hskipped, Nat.add_assoc, ← List.count_append]
            rfl

/-- **The consumer at the queue of a box** shows the notes, and leaves the box without them. -/
theorem Depicts.consume (h : Depicts q b) (hindex : q.readIndex.toNat + 17 < 2 ^ 64)
    (size : UInt64) (cleanedUp : Bool) :
    (⟨0, (Hw4.consume q).output.map Line.loop ++ consumerReport (Hw4.consume q).receivedTextCount
        (Hw4.consume q).skippedCount size cleanedUp, []⟩ : Shown) =
      notesReport (b.take (queueCapacity + 1)).2 size cleanedUp ∧
      Depicts (Hw4.consume q).queue (b.take (queueCapacity + 1)).1 ∧
      (Hw4.consume q).queue.readIndex.toNat ≤ q.readIndex.toNat + 17 := by
  obtain ⟨hm, hle, hout, hreceived, hskipped⟩ :=
    Depicts.loop (queueCapacity + 1) (s := .start q) h rfl hindex
  refine ⟨?_, hm, hle⟩
  have hreceived : (Hw4.consume q).receivedTextCount = (b.take (queueCapacity + 1)).2.count .text :=
    hreceived.trans (Nat.zero_add _)
  have hskipped : (Hw4.consume q).skippedCount = (b.take (queueCapacity + 1)).2.count .number :=
    hskipped.trans (Nat.zero_add _)
  have hout : (Hw4.consume q).output.map Line.loop =
      (b.take (queueCapacity + 1)).2.map Note.line := hout
  rw [hreceived, hskipped, hout]
  rfl

end Queue

/-! ## 3. The machine and the boxes -/

/-- **A machine stands for boxes** after `n` consumers: a file is there exactly when there is a box,
    its object is large enough and holds the queue of the box, and no two files share an object. -/
structure Serves (m : Machine) (b : Mailboxes) (n : ℕ) : Prop where
  absent : ∀ file, m.os.names file = none ↔ b file = none
  depicted : ∀ file object box, m.os.names file = some object → b file = some box →
    Depicts (m.memory object) box ∧ (m.memory object).readIndex.toNat ≤ 17 * n
  large : ∀ file object, m.os.names file = some object → queueMemorySize ≤ m.os.sizes object
  apart : ∀ file file' object, m.os.names file = some object → m.os.names file' = some object →
    file = file'

section Serves

variable {m m' : Machine} {b : Mailboxes} {file : String} {object : ℕ} {q : SharedQueueLayout}
  {box : Box} {n n' : ℕ}

theorem serves_empty (h : ∀ file, m.os.names file = none) : Serves m .empty 0 where
  absent file := iff_of_true (h file) rfl
  depicted file object _ hfile := by rw [h file] at hfile; cases hfile
  large file object hfile := by rw [h file] at hfile; cases hfile
  apart file _ object hfile := by rw [h file] at hfile; cases hfile

theorem Serves.mono (h : Serves m b n) (hle : n ≤ n') : Serves m b n' := by
  refine ⟨h.absent, fun file object box hfile hbox => ?_, h.large, h.apart⟩
  obtain ⟨hdepicts, hindex⟩ := h.depicted file object box hfile hbox
  exact ⟨hdepicts, by omega⟩

/-- What the view tells of the names and of the sizes of the named objects. -/
theorem names_of_view {os os' : OS} (h : os'.view = os.view) (file : String) :
    os'.names file = os.names file ∧
      ∀ object, os.names file = some object → os'.sizes object = os.sizes object := by
  have htable := congrFun (congrArg View.table h) file
  simp only [OS.view] at htable
  cases hfile : os.names file with
  | none =>
      rw [hfile, Option.map_none, Option.map_eq_none_iff] at htable
      exact ⟨htable, fun _ h => by cases h⟩
  | some object =>
      rw [hfile, Option.map_some, Option.map_eq_some_iff] at htable
      obtain ⟨object', hfile', e⟩ := htable
      obtain ⟨rfl, hsize⟩ := Prod.mk.inj e
      exact ⟨hfile', fun _ h => by cases h; exact hsize⟩

theorem Serves.of_view {os : OS} (h : Serves m b n) (hview : os.view = m.os.view) :
    Serves { m with os := os } b n where
  absent file := by
    show os.names file = none ↔ _
    rw [(names_of_view hview file).1]
    exact h.absent file
  depicted file object box hfile :=
    h.depicted file object box ((names_of_view hview file).1 ▸ hfile)
  large file object hfile := by
    have hfile : m.os.names file = some object := (names_of_view hview file).1 ▸ hfile
    show _ ≤ os.sizes object
    rw [(names_of_view hview file).2 object hfile]
    exact h.large file object hfile
  apart file file' object hfile hfile' :=
    h.apart file file' object ((names_of_view hview file).1 ▸ hfile)
      ((names_of_view hview file').1 ▸ hfile')

/-- **A box is put up or gets other contents**: its object is nobody else's. -/
theorem Serves.put (h : Serves m b n) (hle : n ≤ n')
    (hnames : m'.os.names = Function.update m.os.names file (some object))
    (hown : ∀ file', file' ≠ file → m.os.names file' ≠ some object)
    (hsizes : ∀ file' object', file' ≠ file → m.os.names file' = some object' →
      m'.os.sizes object' = m.os.sizes object')
    (hlarge : queueMemorySize ≤ m'.os.sizes object)
    (hmemory : m'.memory = Function.update m.memory object q)
    (hq : Depicts q box ∧ q.readIndex.toNat ≤ 17 * n') :
    Serves m' (Function.update b file (some box)) n' := by
  have hself : m'.os.names file = some object := by rw [hnames, Function.update_self]
  have hother : ∀ file', file' ≠ file → m'.os.names file' = m.os.names file' := fun file' hne => by
    rw [hnames, Function.update_of_ne hne]
  refine ⟨fun file' => ?_, fun file' object' box' hfile hbox => ?_, fun file' object' hfile => ?_,
    fun file₁ file₂ object' h₁ h₂ => ?_⟩
  · by_cases e : file' = file
    · rw [e, hself, Function.update_self]
      exact iff_of_false (fun h => by cases h) fun h => by cases h
    · rw [hother file' e, Function.update_of_ne e]
      exact h.absent file'
  · by_cases e : file' = file
    · rw [e] at hfile hbox
      rw [Function.update_self] at hbox
      obtain rfl := Option.some.inj (hself.symm.trans hfile)
      obtain rfl := Option.some.inj hbox
      rw [hmemory, Function.update_self]
      exact hq
    · rw [hother file' e] at hfile
      rw [Function.update_of_ne e] at hbox
      have hne : object' ≠ object := fun heq => hown file' e (heq ▸ hfile)
      rw [hmemory, Function.update_of_ne hne]
      exact (h.mono hle).depicted file' object' box' hfile hbox
  · by_cases e : file' = file
    · rw [e] at hfile
      obtain rfl := Option.some.inj (hself.symm.trans hfile)
      exact hlarge
    · rw [hother file' e] at hfile
      rw [hsizes file' object' e hfile]
      exact h.large file' object' hfile
  · by_cases e₁ : file₁ = file
    · by_cases e₂ : file₂ = file
      · rw [e₁, e₂]
      · rw [e₁] at h₁
        rw [hother file₂ e₂] at h₂
        obtain rfl := Option.some.inj (hself.symm.trans h₁)
        exact absurd h₂ (hown file₂ e₂)
    · rw [hother file₁ e₁] at h₁
      by_cases e₂ : file₂ = file
      · rw [e₂] at h₂
        obtain rfl := Option.some.inj (hself.symm.trans h₂)
        exact absurd h₁ (hown file₁ e₁)
      · rw [hother file₂ e₂] at h₂
        exact h.apart file₁ file₂ object' h₁ h₂

/-- **A box is taken away.** -/
theorem Serves.remove (h : Serves m b n) (hfile : m.os.names file = some object)
    (hnames : m'.os.names = Function.update m.os.names file none)
    (hsizes : m'.os.sizes = m.os.sizes)
    (hmemory : m'.memory = Function.update m.memory object q) :
    Serves m' (Function.update b file none) n := by
  have hother : ∀ file' object', m'.os.names file' = some object' →
      file' ≠ file ∧ m.os.names file' = some object' := by
    intro file' object' h'
    rw [hnames] at h'
    by_cases e : file' = file
    · rw [e, Function.update_self] at h'
      cases h'
    · rw [Function.update_of_ne e] at h'
      exact ⟨e, h'⟩
  refine ⟨fun file' => ?_, fun file' object' box' h' hbox => ?_, fun file' object' h' => ?_,
    fun file₁ file₂ object' h₁ h₂ => ?_⟩
  · rw [hnames]
    by_cases e : file' = file
    · rw [e, Function.update_self, Function.update_self]
      exact iff_of_true rfl rfl
    · rw [Function.update_of_ne e, Function.update_of_ne e]
      exact h.absent file'
  · obtain ⟨hne, h'⟩ := hother file' object' h'
    rw [Function.update_of_ne hne] at hbox
    have hobject : object' ≠ object := fun e => hne (h.apart file' file object' h' (e ▸ hfile))
    rw [hmemory, Function.update_of_ne hobject]
    exact h.depicted file' object' box' h' hbox
  · rw [hsizes]
    exact h.large file' object' (hother file' object' h').2
  · exact h.apart file₁ file₂ object' (hother file₁ object' h₁).2 (hother file₂ object' h₂).2

/-- The box of a file that is there. -/
theorem Serves.boxed (h : Serves m b n) (hfile : m.os.names file = some object) :
    ∃ box, b file = some box ∧ Depicts (m.memory object) box ∧
      (m.memory object).readIndex.toNat ≤ 17 * n := by
  cases hbox : b file with
  | none =>
      rw [(h.absent file).mpr hbox] at hfile
      cases hfile
  | some box => exact ⟨box, rfl, h.depicted file object box hfile hbox⟩

end Serves

/-! ## 4. A run -/

/-- The run is one of the consumer. -/
def Command.consumes (c : Command) : Bool := decide (c.program = .consumer)

section Runs

variable {m : Machine} {b : Mailboxes} {os : OS} {size : UInt64} {object n : ℕ} {r : SetupResult}
  {c : Command} {file : String}

/-- A run at the machine and the same run at the boxes, after `n` consumers. -/
def Refines (m : Machine) (b : Mailboxes) (n : ℕ) (c : Command) : Prop :=
  (c.exec m).2 = (b.exec c (c.granted m.os)).2 ∧
    Serves (c.exec m).1 (b.exec c (c.granted m.os)).1 (n + if c.consumes then 1 else 0) ∧
    Reclaimed m (c.exec m).1

theorem refines_of_eq {m' : Machine} {b' : Mailboxes} {shown : Shown}
    (hexec : c.exec m = (m', shown)) (hbox : b.exec c (c.granted m.os) = (b', shown))
    (h : Serves m' b' (n + if c.consumes then 1 else 0)) (hreclaimed : Reclaimed m m') :
    Refines m b n c := by
  unfold Refines
  rw [hexec, hbox]
  exact ⟨rfl, h, hreclaimed⟩

theorem refines_of_tooSmall (h : Serves m b n) (hsize : queueSize c.args = none) :
    Refines m b n c := by
  have hexec : c.exec m = (m, .failure "Queue size is too small") := by
    cases hc : c.program <;> simp only [Command.exec, hc, producerMain, consumerMain, hsize]
  have hbox : b.exec c (c.granted m.os) = (b, .failure "Queue size is too small") := by
    simp only [Mailboxes.exec, hsize]
  exact refines_of_eq hexec hbox (h.mono (Nat.le_add_right _ _)) ⟨rfl, rfl⟩

/-- Without shared memory a run has no effect on the boxes. -/
theorem exec_refused (hsize : queueSize c.args = some size) :
    b.exec c false = (b, c.program.refused) := by
  unfold Mailboxes.exec
  rw [hsize]
  cases shmArg c.args <;> rfl

/-- A producer without shared memory changes nothing. -/
theorem producer_refines_refused {args : List String} {o : Outcomes} {unlinks : Bool}
    {w : Option Bool} (h : Serves m b n) (hsize : queueSize args = some size)
    (hr : createOrOpenSharedMemory m.os (shmArg args) size (some .unset) (some false) o = (r, w))
    (hok : r.returned = false) : Refines m b n ⟨.producer, args, o, unlinks⟩ := by
  obtain ⟨os', region', returned⟩ := r
  obtain rfl : returned = false := hok
  have hview : os'.view = m.os.view := by
    have hended := (createOrOpenSharedMemory_ended m.os (shmArg args) size (some .unset)
      (some false) o).1
    rw [hr] at hended
    exact (hended.failure rfl).1
  have hexec : Command.exec ⟨.producer, args, o, unlinks⟩ m =
      ({ m with os := os' }, .failure "Failed to create or open shared memory") := by
    simp only [Command.exec, producerMain, hsize, hr]
  have hgranted : Command.granted ⟨.producer, args, o, unlinks⟩ m.os = false := by
    simp only [Command.granted, hsize, hr]
  refine refines_of_eq hexec ?_ (h.of_view hview)
    ⟨congrArg View.descriptors hview, congrArg View.mappings hview⟩
  rw [hgranted]
  exact exec_refused hsize

/-- A producer that puts the box up. -/
theorem producer_refines_created {args : List String} {o : Outcomes} {unlinks : Bool}
    (h : Serves m b n) (hsize : queueSize args = some size) (hfile : shmArg args = some file)
    (hr : createOrOpenSharedMemory m.os (some file) size (some .unset) (some false) o =
      (r, some true))
    (hok : r.returned = true) (hname : m.os.names file = none)
    (hprovides : Provides m.os ((m.os.create file).resize m.os.created size.toNat) size
      m.os.created r) :
    Refines m b n ⟨.producer, args, o, unlinks⟩ := by
  obtain ⟨region, hattached⟩ := hprovides.attached
  obtain ⟨hshown, hdepicts, hindex⟩ :=
    (depicts_new (m.memory m.os.created)).produce true rfl size
  have hexec := producerMain_granted hsize (by rw [hfile]; exact hr) hok hattached
  rw [hshown] at hexec
  have hgranted : Command.granted ⟨.producer, args, o, unlinks⟩ m.os = true := by
    simp only [Command.granted, hsize, hfile, hr, hok]
  have hbox : b.exec ⟨.producer, args, o, unlinks⟩
      (Command.granted ⟨.producer, args, o, unlinks⟩ m.os) =
      (Function.update b file (some (Box.new.produce true size).1),
        (Box.new.produce true size).2) := by
    rw [hgranted]
    simp only [Mailboxes.exec, hsize, hfile, (h.absent _).mp hname]
  have hnames : ∀ q, (m.left r region m.os.created q).os.names =
      Function.update m.os.names file (some m.os.created) := fun _ => hattached.names
  have hsizes : (closeSharedMemory r.os (some region)).1.sizes =
      Function.update (Function.update m.os.sizes m.os.created 0) m.os.created size.toNat :=
    hattached.sizes
  refine refines_of_eq hexec hbox (h.put (Nat.le_refl n) (hnames _) ?_ ?_ ?_ rfl
    ⟨hdepicts, ?_⟩) hattached.reclaimed
  · exact fun file' _ hfile' => Nat.lt_irrefl _ (m.os.named file' _ hfile')
  · intro file' object' _ hfile'
    have hne : object' ≠ m.os.created := Nat.ne_of_lt (m.os.named file' object' hfile')
    show (closeSharedMemory r.os (some region)).1.sizes object' = _
    rw [hsizes, Function.update_of_ne hne, Function.update_of_ne hne]
  · show _ ≤ (closeSharedMemory r.os (some region)).1.sizes m.os.created
    rw [hsizes, Function.update_self]
    exact queueSize_large hsize
  · rw [hindex]
    exact Nat.zero_le _

/-- A run with its shared memory leaves its queue in the object of its file. -/
theorem Serves.left {region : SharedMemoryRegion} {q : SharedQueueLayout} {box : Box} {n' : ℕ}
    (h : Serves m b n) (hle : n ≤ n') (hfile : m.os.names file = some object)
    (hattached : Attached m m.os object r region)
    (hq : Depicts q box ∧ q.readIndex.toNat ≤ 17 * n') :
    Serves (m.left r region object q) (Function.update b file (some box)) n' := by
  refine h.put hle ?_ (fun file' hne hfile' => hne (h.apart file' _ object hfile' hfile))
    (fun file' object' _ _ => congrFun hattached.sizes object') ?_ rfl hq
  · rw [← hfile, Function.update_eq_self]
    exact hattached.names
  · show _ ≤ (closeSharedMemory r.os (some region)).1.sizes object
    rw [hattached.sizes]
    exact h.large _ object hfile

/-- A producer that finds the box. -/
theorem producer_refines_opened {args : List String} {o : Outcomes} {unlinks : Bool}
    (h : Serves m b n) (hsize : queueSize args = some size) (hfile : shmArg args = some file)
    (hr : createOrOpenSharedMemory m.os (some file) size (some .unset) (some false) o =
      (r, some false))
    (hok : r.returned = true) (hname : m.os.names file = some object)
    (hprovides : Provides m.os m.os size object r) :
    Refines m b n ⟨.producer, args, o, unlinks⟩ := by
  obtain ⟨region, hattached⟩ := hprovides.attached
  obtain ⟨box, hbox, hdepicts, hindex⟩ := h.boxed hname
  obtain ⟨hshown, hdepicts', hindex'⟩ := hdepicts.produce false rfl size
  have hexec := producerMain_granted hsize (by rw [hfile]; exact hr) hok hattached
  rw [hshown] at hexec
  have hgranted : Command.granted ⟨.producer, args, o, unlinks⟩ m.os = true := by
    simp only [Command.granted, hsize, hfile, hr, hok]
  refine refines_of_eq hexec ?_ (h.left (Nat.le_refl n) hname hattached
    ⟨hdepicts', hindex' ▸ hindex⟩) hattached.reclaimed
  rw [hgranted]
  simp only [Mailboxes.exec, hsize, hfile, hbox]

/-- **A producer does at the machine what it does at the boxes.** -/
theorem producer_refines {args : List String} {o : Outcomes} {unlinks : Bool} (h : Serves m b n)
    (hsize : queueSize args = some size) : Refines m b n ⟨.producer, args, o, unlinks⟩ := by
  rcases hr : createOrOpenSharedMemory m.os (shmArg args) size (some .unset) (some false) o
    with ⟨r, w⟩
  cases hok : r.returned with
  | false => exact producer_refines_refused h hsize hr hok
  | true =>
      cases hfile : shmArg args with
      | none =>
          rw [hfile] at hr
          obtain rfl := (Prod.mk.inj hr).1
          cases hok
      | some file =>
          rw [hfile] at hr
          rcases createOrOpen_provides hr hok with
            ⟨hname, hw, hprovides⟩ | ⟨object, hname, hw, hprovides⟩
          · exact producer_refines_created h hsize hfile (hr.trans (congrArg _ hw)) hok hname
              hprovides
          · exact producer_refines_opened h hsize hfile (hr.trans (congrArg _ hw)) hok hname
              hprovides

/-- A consumer without shared memory changes nothing. -/
theorem consumer_refines_refused {args : List String} {o : Outcomes} {unlinks : Bool}
    (h : Serves m b n) (hsize : queueSize args = some size)
    (hok : (openSharedMemory m.os (shmArg args) size (some .unset) o).returned = false) :
    Refines m b n ⟨.consumer, args, o, unlinks⟩ := by
  have hended := openSharedMemory_ended m.os (shmArg args) size (some .unset) o
  have hgranted : Command.granted ⟨.consumer, args, o, unlinks⟩ m.os = false := by
    simp only [Command.granted, hsize, hok]
  rcases hr : openSharedMemory m.os (shmArg args) size (some .unset) o with
    ⟨os', region', returned⟩
  rw [hr] at hok hended
  obtain rfl : returned = false := hok
  obtain rfl : os' = m.os := (hended.failure rfl).1
  have hexec : Command.exec ⟨.consumer, args, o, unlinks⟩ m =
      (m, .failure "Failed to open shared memory") := by
    simp only [Command.exec, consumerMain, hsize, hr]
  refine refines_of_eq hexec ?_ (h.mono (Nat.le_add_right _ _)) ⟨rfl, rfl⟩
  rw [hgranted]
  exact exec_refused hsize

/-- **A consumer does at the machine what it does at the boxes.** -/
theorem consumer_refines {args : List String} {o : Outcomes} {unlinks : Bool} (h : Serves m b n)
    (hn : n < 2 ^ 59) (hsize : queueSize args = some size) :
    Refines m b n ⟨.consumer, args, o, unlinks⟩ := by
  cases hok : (openSharedMemory m.os (shmArg args) size (some .unset) o).returned with
  | false => exact consumer_refines_refused h hsize hok
  | true =>
      cases hfile : shmArg args with
      | none => rw [hfile] at hok; cases hok
      | some file =>
          rw [hfile] at hok
          obtain ⟨object, hname, hprovides⟩ := openSharedMemory_provides hok
          obtain ⟨region, hattached⟩ := hprovides.attached
          obtain ⟨box, hbox, hdepicts, hindex⟩ := h.boxed hname
          obtain ⟨hshown, hdepicts', hindex'⟩ := hdepicts.consume (by omega) size unlinks
          have hgranted : Command.granted ⟨.consumer, args, o, unlinks⟩ m.os = true := by
            simp only [Command.granted, hsize, hfile, hok]
          have hexec := consumerMain_granted unlinks hsize hfile rfl hok hattached
            hdepicts.valid fun hnone => by rw [hname] at hnone; cases hnone
          rw [hshown] at hexec
          have hbox' : b.exec ⟨.consumer, args, o, unlinks⟩
              (Command.granted ⟨.consumer, args, o, unlinks⟩ m.os) =
              (Function.update b file
                  (if unlinks then none else some (box.take (queueCapacity + 1)).1),
                notesReport (box.take (queueCapacity + 1)).2 size unlinks) := by
            rw [hgranted]
            simp only [Mailboxes.exec, hsize, hfile, hbox]
          refine refines_of_eq hexec hbox' ?_ ?_
          · cases unlinks with
            | false =>
                have hindex' :
                    (consume (m.memory object)).queue.readIndex.toNat ≤ 17 * (n + 1) := by omega
                exact h.left (Nat.le_succ n) hname hattached ⟨hdepicts', hindex'⟩
            | true =>
                refine (h.mono (Nat.le_succ n)).remove hname ?_ hattached.sizes rfl
                show Function.update (closeSharedMemory _ _).1.names _ none = _
                rw [hattached.names]
          · cases unlinks with
            | false => exact hattached.reclaimed
            | true => exact hattached.reclaimed

/-- **A run does at the machine what it does at the boxes.** -/
theorem exec_refines (h : Serves m b n) (c : Command)
    (hn : (n + if c.consumes then 1 else 0) ≤ 2 ^ 59) : Refines m b n c := by
  obtain ⟨program, args, o, unlinks⟩ := c
  cases hsize : queueSize args with
  | none => exact refines_of_tooSmall h hsize
  | some size =>
      cases program with
      | producer => exact producer_refines h hsize
      | consumer => exact consumer_refines h hn hsize

/-- **So does a session.** -/
theorem session_refines (cs : List Command) : ∀ {m : Machine} {b : Mailboxes} {n : ℕ},
    Serves m b n → n + cs.countP Command.consumes ≤ 2 ^ 59 →
    (m.session cs).2 = (b.session (cs.zip (m.grants cs))).2 ∧
      Serves (m.session cs).1 (b.session (cs.zip (m.grants cs))).1
        (n + cs.countP Command.consumes) ∧
      Reclaimed m (m.session cs).1 := by
  induction cs with
  | nil => exact fun h _ => ⟨rfl, h, rfl, rfl⟩
  | cons c cs ih =>
      intro m b n h hn
      rw [List.countP_cons, Nat.add_comm (cs.countP _), ← Nat.add_assoc] at hn ⊢
      obtain ⟨hshown, hserves, hreclaimed⟩ := exec_refines h c (by omega)
      obtain ⟨hshown', hserves', hreclaimed'⟩ := ih hserves hn
      refine ⟨?_, hserves', hreclaimed'.1.trans hreclaimed.1, hreclaimed'.2.trans hreclaimed.2⟩
      show (c.exec m).2 :: _ = (b.exec c (c.granted m.os)).2 :: _
      rw [hshown]
      exact congrArg _ hshown'

end Runs

/-! ## 5. When the kernel grants every call -/

/-- The kernel is willing, for the size the run asks for. -/
def Command.Available (c : Command) (os : OS) : Prop :=
  c.unlinks = true ∧ ∀ size, queueSize c.args = some size → c.outcomes.Available os size

section Available

variable {c : Command} {m : Machine} {b : Mailboxes} {n : ℕ}

/-- With the kernel willing, a run at the boxes is one that is granted. -/
theorem exec_available (h : Serves m b n) (ha : c.Available m.os) :
    b.exec c (c.granted m.os) = b.exec c true := by
  obtain ⟨program, args, o, unlinks⟩ := c
  cases hsize : queueSize args with
  | none => simp only [Mailboxes.exec, hsize]
  | some size =>
      cases hfile : shmArg args with
      | none => simp only [Mailboxes.exec, hsize, hfile]
      | some file =>
          cases program with
          | producer =>
              have hgranted : Command.granted ⟨.producer, args, o, unlinks⟩ m.os = true := by
                simp only [Command.granted, hsize, hfile]
                exact createOrOpen_returned (ha.2 size hsize) (queueSize_ne_zero hsize)
              rw [hgranted]
          | consumer =>
              cases hbox : b file with
              | none =>
                  have hnothing : Mailboxes.exec b ⟨.consumer, args, o, unlinks⟩ true =
                      (b, Program.consumer.refused) := by
                    simp only [Mailboxes.exec, hsize, hfile, hbox]
                  cases Command.granted ⟨.consumer, args, o, unlinks⟩ m.os with
                  | true => rfl
                  | false => rw [hnothing, exec_refused hsize]
              | some box =>
                  have hname : m.os.names file ≠ none := fun hnone => by
                    rw [(h.absent _).mp hnone] at hbox
                    cases hbox
                  have hgranted : Command.granted ⟨.consumer, args, o, unlinks⟩ m.os = true := by
                    simp only [Command.granted, hsize, hfile]
                    exact openSharedMemory_returned (ha.2 size hsize) (queueSize_ne_zero hsize)
                      hname
                  rw [hgranted]

theorem Command.Available.of_reclaimed {m' : Machine} (h : c.Available m.os)
    (hreclaimed : Reclaimed m m') : c.Available m'.os := by
  refine ⟨h.1, fun size hsize => ?_⟩
  obtain ⟨hopen, hreopen, hftruncate, hmmap, hsmall⟩ := h.2 size hsize
  rw [← hreclaimed.1] at hopen hreopen
  rw [← hreclaimed.2] at hmmap
  exact ⟨hopen, hreopen, hftruncate, hmmap, hsmall⟩

theorem session_available (cs : List Command) : ∀ {m : Machine} {b : Mailboxes} {n : ℕ},
    Serves m b n → n + cs.countP Command.consumes ≤ 2 ^ 59 → (∀ c ∈ cs, c.Available m.os) →
    b.session (cs.zip (m.grants cs)) = b.session (cs.map fun c => (c, true)) := by
  induction cs with
  | nil => exact fun _ _ _ => rfl
  | cons c cs ih =>
      intro m b n h hn ha
      rw [List.countP_cons, Nat.add_comm (cs.countP _), ← Nat.add_assoc] at hn
      obtain ⟨-, hserves, hreclaimed⟩ := exec_refines h c (by omega)
      have hc := exec_available h (ha c List.mem_cons_self)
      have hcs := ih hserves hn
        fun c' hc' => (ha c' (List.mem_cons_of_mem c hc')).of_reclaimed hreclaimed
      simp only [Machine.grants, List.zip_cons_cons, List.map_cons, Mailboxes.session]
      rw [hcs, hc]

end Available

/-! ## 6. Sessions -/

/-- A machine on which nothing has happened. -/
def Machine.fresh : Machine := ⟨.empty, fun _ => .zero⟩

/-- The kernel grants what a run asks for; `unlinks` decides about the clean-up. -/
def Command.easy (program : Program) (args : List String) (unlinks : Bool) : Command :=
  ⟨program, args, ⟨.ok 3, .ok 3, true, some 8192⟩, unlinks⟩

/-- What a consumer prints of the messages of one producer. -/
def pairLines : List Line := [.loop .skipped, .loop (.received (some textBytes.dropLast))]

/-- What a consumer of a box with `k` producers shows. -/
def boxReport (k : ℕ) (size : UInt64) : Shown :=
  ⟨0, (List.replicate k pairLines).flatten ++ consumerReport k k size true, []⟩

/-- What the producer that comes `i`th shows, counted from 0. -/
def producerShown (size : UInt64) (i : ℕ) : Shown :=
  if i = 0 then producerReport true size
  else if i < 8 then producerReport false size
  else .failure "Failed to push NUMBER message"

/-- The holes with the notes of `k` producers. -/
def pairHoles (k : ℕ) (i : Fin queueCapacity) : Option Note :=
  if i.val < 2 * k then some (if i.val % 2 = 0 then .number else .text) else none

/-- **The box of `k` producers**, of which no consumer has taken anything. When it is full the hole
    of the next push may be any. -/
structure Filled (b : Box) (k : ℕ) : Prop where
  holes : b.holes = pairHoles k
  read : b.read = getSlot 0
  write : k < 8 → b.write.val = 2 * k

section Filled

variable {b : Box} {k : ℕ} {size : UInt64}

theorem filled_new : Filled .new 0 := ⟨rfl, rfl, fun _ => rfl⟩

theorem nextHole_val {i : Fin queueCapacity} (h : i.val + 1 < 16) :
    (nextHole i).val = i.val + 1 := Nat.mod_eq_of_lt h

/-- The two notes of one of the first eight producers. -/
theorem Filled.produce (h : Filled b k) (hk : k < 8) (wasCreated : Bool) (size : UInt64) :
    (b.produce wasCreated size).2 = producerReport wasCreated size ∧
      Filled (b.produce wasCreated size).1 (k + 1) := by
  have hwrite := h.write hk
  have hnext : (nextHole b.write).val = 2 * k + 1 := by rw [nextHole_val (by omega), hwrite]
  have hne : nextHole b.write ≠ b.write := fun e => by
    have := congrArg Fin.val e
    omega
  have hfirst : b.holes b.write = none := by
    rw [h.holes, pairHoles, if_neg (by omega)]
  have hsecond : Function.update b.holes b.write (some Note.number) (nextHole b.write) = none := by
    rw [Function.update_of_ne hne, h.holes, pairHoles, if_neg (by omega)]
  simp only [Box.produce, Box.push, hfirst, hsecond]
  refine ⟨trivial, funext fun i => ?_, h.read, fun hk' => ?_⟩
  · simp only [Function.update_apply, h.holes, pairHoles, Fin.ext_iff, hwrite, hnext]
    split_ifs <;> first | rfl | omega
  · show (nextHole (nextHole b.write)).val = _
    rw [nextHole_val (by omega), hnext]
    omega

/-- The ninth producer finds its hole taken, whichever it is. -/
theorem Filled.refuses (h : Filled b 8) (size : UInt64) :
    (b.produce false size).2 = .failure "Failed to push NUMBER message" ∧
      Filled (b.produce false size).1 8 := by
  have hlt := b.write.isLt
  have hx : b.holes b.write = some (if b.write.val % 2 = 0 then .number else .text) := by
    rw [h.holes, pairHoles, if_pos hlt]
  simp only [Box.produce, Box.push, hx]
  exact ⟨trivial, h.holes, h.read, fun hk => absurd hk (Nat.lt_irrefl 8)⟩

/-- A consumer takes the notes of all of them. -/
theorem Filled.take (h : Filled b k) (hk : k ≤ 8) :
    (b.take (queueCapacity + 1)).2 = (List.replicate k [Note.number, Note.text]).flatten := by
  have hall : ∀ w : Fin queueCapacity, ∀ k ∈ List.range 9,
      (Box.take (queueCapacity + 1) ⟨pairHoles k, getSlot 0, w⟩).2 =
        (List.replicate k [Note.number, Note.text]).flatten := by decide +kernel
  have hb : b = ⟨pairHoles k, getSlot 0, b.write⟩ := by
    rw [← h.holes, ← h.read]
  rw [hb]
  exact hall b.write k (List.mem_range.mpr (by omega))

theorem notesReport_pairs (k : ℕ) (size : UInt64) :
    notesReport (List.replicate k [Note.number, Note.text]).flatten size true =
      boxReport k size := by
  have hcount : ∀ x, [Note.number, Note.text].count x = 1 →
      (List.replicate k [Note.number, Note.text]).flatten.count x = k := fun x hx => by
    simp [List.count_flatten, hx]
  unfold notesReport boxReport
  rw [hcount _ (by decide), hcount _ (by decide), List.map_flatten, List.map_replicate]
  rfl

end Filled

/-- The box of a file after `k` producers. -/
def After (b : Mailboxes) (file : String) (k : ℕ) : Prop :=
  match b file with
  | none => k = 0
  | some box => k ≠ 0 ∧ Filled box (min k 8)

section Demo

variable {b : Mailboxes} {c : Command} {file : String} {size : UInt64} {i : ℕ}

theorem exec_producer (hc : c.program = .producer) (hfile : shmArg c.args = some file)
    (hsize : queueSize c.args = some size) (h : After b file i) :
    (b.exec c true).2 = producerShown size i ∧ After (b.exec c true).1 file (i + 1) := by
  unfold After at h
  simp only [Mailboxes.exec, hsize, hfile, hc]
  cases hbox : b file with
  | none =>
      simp only [hbox] at h
      subst h
      obtain ⟨hshown, hfilled⟩ := filled_new.produce (by decide) true size
      refine ⟨hshown, ?_⟩
      simp only [After, Function.update_self]
      exact ⟨Nat.one_ne_zero, hfilled⟩
  | some box =>
      simp only [hbox] at h
      obtain ⟨h0, hfilled⟩ := h
      by_cases h8 : i < 8
      · rw [Nat.min_eq_left (Nat.le_of_lt h8)] at hfilled
        obtain ⟨hshown, hfilled'⟩ := hfilled.produce h8 false size
        refine ⟨?_, ?_⟩
        · rw [producerShown, if_neg h0, if_pos h8]
          exact hshown
        · simp only [After, Function.update_self]
          rw [Nat.min_eq_left h8]
          exact ⟨Nat.succ_ne_zero i, hfilled'⟩
      · rw [Nat.min_eq_right (Nat.not_lt.mp h8)] at hfilled
        obtain ⟨hshown, hfilled'⟩ := hfilled.refuses size
        refine ⟨?_, ?_⟩
        · rw [producerShown, if_neg h0, if_neg h8]
          exact hshown
        · simp only [After, Function.update_self]
          rw [Nat.min_eq_right (by omega)]
          exact ⟨Nat.succ_ne_zero i, hfilled'⟩

theorem exec_consumer (hc : c.program = .consumer) (hfile : shmArg c.args = some file)
    (hsize : queueSize c.args = some size) (hunlinks : c.unlinks = true) (h : After b file i) :
    (b.exec c true).2 = if i = 0 then .failure "Failed to open shared memory"
      else boxReport (min i 8) size := by
  unfold After at h
  simp only [Mailboxes.exec, hsize, hfile, hc, hunlinks]
  cases hbox : b file with
  | none =>
      simp only [hbox] at h
      rw [if_pos h]
      rfl
  | some box =>
      simp only [hbox] at h
      rw [if_neg h.1]
      show notesReport (box.take (queueCapacity + 1)).2 size true = _
      rw [h.2.take (Nat.min_le_right i 8), notesReport_pairs]

/-- Producers one after the other, with `i` before them. -/
theorem session_producers (ps : List Command) (c : Command) :
    ∀ {b : Mailboxes} {i : ℕ} {sizes : List UInt64},
      (∀ p ∈ ps, p.program = .producer ∧ shmArg p.args = some file) →
      ps.map (fun p => queueSize p.args) = sizes.map some → After b file i →
      ∃ b', (b.session ((ps ++ [c]).map fun c => (c, true))).2 =
          sizes.mapIdx (fun j size => producerShown size (i + j)) ++ [(b'.exec c true).2] ∧
        After b' file (i + ps.length) := by
  induction ps with
  | nil =>
      intro b i sizes _ hsizes h
      obtain rfl : sizes = [] := List.map_eq_nil_iff.mp hsizes.symm
      exact ⟨b, rfl, h⟩
  | cons p ps ih =>
      intro b i sizes hps hsizes h
      cases sizes with
      | nil => cases hsizes
      | cons size sizes =>
          obtain ⟨hsize, hsizes⟩ := List.cons.inj hsizes
          obtain ⟨hp, hfile⟩ := hps p List.mem_cons_self
          obtain ⟨hshown, hafter⟩ := exec_producer hp hfile hsize h
          obtain ⟨b', hrest, hafter'⟩ := ih (fun p' hp' => hps p' (List.mem_cons_of_mem p hp'))
            hsizes hafter
          refine ⟨b', ?_, ?_⟩
          · rw [List.cons_append, List.map_cons, List.mapIdx_cons, List.cons_append]
            show (b.exec p true).2 :: _ = _
            rw [hshown]
            refine congrArg _ (hrest.trans ?_)
            simp only [Nat.add_assoc, Nat.add_comm 1]
          · rw [List.length_cons, Nat.add_comm ps.length, ← Nat.add_assoc]
            exact hafter'

end Demo

/-- **Any number of producers and then a consumer**, with one file and a size each: the first
    producer creates, the next seven open, every later one fails on its NUMBER; the consumer prints
    the messages of the first eight and cleans up. -/
theorem producers_then_consumer (m : Machine) (hnames : ∀ file, m.os.names file = none)
    (file : String) (sizes : List UInt64) (size : UInt64) (ps : List Command) (c : Command)
    (hps : ∀ p ∈ ps, p.program = .producer ∧ shmArg p.args = some file ∧ p.Available m.os)
    (hsizes : ps.map (fun p => queueSize p.args) = sizes.map some)
    (hc : c.program = .consumer ∧ shmArg c.args = some file ∧ queueSize c.args = some size ∧
      c.Available m.os) :
    (m.session (ps ++ [c])).2 =
      sizes.mapIdx (fun i size => producerShown size i) ++
        [if ps.length = 0 then .failure "Failed to open shared memory"
          else boxReport (min ps.length 8) size] := by
  obtain ⟨hprogram, hfile, hsize, havailable⟩ := hc
  have hall : ∀ c' ∈ ps ++ [c], c'.Available m.os := by
    intro c' hc'
    rcases List.mem_append.mp hc' with hc' | hc'
    · exact (hps c' hc').2.2
    · rw [List.mem_singleton.mp hc']
      exact havailable
  have hnone : ps.countP Command.consumes = 0 := List.countP_eq_zero.mpr fun p hp hconsumes => by
    have := of_decide_eq_true hconsumes
    rw [(hps p hp).1] at this
    cases this
  have hfew : 0 + (ps ++ [c]).countP Command.consumes ≤ 2 ^ 59 := by
    have hone := List.countP_le_length (p := Command.consumes) (l := [c])
    rw [List.countP_append, hnone]
    rw [List.length_singleton] at hone
    omega
  have h := serves_empty hnames
  obtain ⟨b', hshown, hafter⟩ := session_producers ps c (b := .empty) (i := 0)
    (fun p hp => ⟨(hps p hp).1, (hps p hp).2.1⟩) hsizes rfl
  simp only [Nat.zero_add] at hshown hafter
  rw [(session_refines _ h hfew).1, session_available _ h hfew hall, hshown,
    exec_consumer hprogram hfile hsize havailable.1 hafter]

/-- `./producer_hw4 hw4_queue 4320` and `./consumer_hw4`. -/
def producerCommand : Command := .easy .producer ["hw4_queue", toString 4320] true

def consumerCommand : Command := .easy .consumer [] true

theorem available_fresh {program : Program} {args : List String}
    (hsize : queueSize args = some 4320) :
    (Command.easy program args true).Available Machine.fresh.os := by
  refine ⟨rfl, fun size hs => ?_⟩
  obtain rfl := Option.some.inj (hsize.symm.trans hs)
  exact ⟨⟨3, rfl, rfl⟩, ⟨3, rfl, rfl⟩, rfl,
    ⟨8192, rfl, by decide, fun p hp => absurd hp List.not_mem_nil⟩, by decide⟩

theorem producers_then_consumer_ten :
    (Machine.fresh.session (List.replicate 10 producerCommand ++ [consumerCommand])).2 =
      (List.replicate 10 4320).mapIdx (fun i size => producerShown size i) ++
        [boxReport 8 4320] := by
  have hproducer : queueSize producerCommand.args = some 4320 :=
    queueSize_toString "hw4_queue" (by decide) (by decide)
  have hconsumer : queueSize consumerCommand.args = some 4320 := rfl
  have hnamed : shmArg producerCommand.args = some "hw4_queue" ∧
      shmArg consumerCommand.args = some "hw4_queue" := by decide +kernel
  refine producers_then_consumer .fresh (fun _ => rfl) "hw4_queue" (List.replicate 10 4320) 4320 _ _
    (fun p hp => ?_) ?_ ⟨rfl, hnamed.2, hconsumer, available_fresh hconsumer⟩
  · rw [List.eq_of_mem_replicate hp]
    exact ⟨rfl, hnamed.1, available_fresh hproducer⟩
  · rw [List.map_replicate, List.map_replicate, hproducer]

end HseMultithreading.Hw4
