/-
  File:      HseMultithreading/Ipc/Mqueue.lean
  Subject:   The parent and the child of `ipc/mqueue.cpp`, which open a POSIX message queue by its
             name after `fork`, each for itself, and pass lines through it.

  The name leads to an object only until the parent unlinks it. A child that opens after that
  creates a queue of its own and waits there for ever, while the parent waits for the child. The
  queue takes ten messages, so with ten lines or more the parent cannot be done before the child has
  opened the queue.

  * `Mqueue`, `Mqueue.step` -- the objects, the name and the two processes: `mq_open` with
    `O_CREAT`, `mq_send` (which waits while ten messages are queued), `mq_receive`, `mq_close`,
    `mq_unlink` and `wait` are steps.
  * `Mqueue.Joined` -- the parent unlinks the name only after the child has opened the queue.
  * **`mqueue_delivers_iff`** -- every run ends; a maximal run delivers every line and the stop
    message exactly when it is joined; and every maximal run does exactly when there are ten lines
    or more.
  * `mqueue_early_unlink_deadlocks` -- no line at all, and the child comes late.
-/
import HseMultithreading.Ipc.Handshake

namespace HseMultithreading.Ipc

open StepSystem

/-! ## 1. The machine -/

/-- `Message::BufferSize`. -/
abbrev messageBufferSize : ℕ := 1024

/-- `attr.mq_maxmsg`. -/
abbrev maxMessages : ℕ := 10

/-- `Message::Type`. -/
inductive MessageType where
  | default
  | stop
  deriving DecidableEq

structure Message where
  messageType : MessageType
  data : Fin messageBufferSize → UInt8

/-- The message the parent sends for a line. -/
def Message.ofLine (line : Line) : Message := ⟨.default, line.copyTo fun _ => 0⟩

/-- The message the parent sends at the end. -/
def Message.stop : Message := ⟨.stop, fun _ => 0⟩

/-- What the parent sends in all. -/
def Message.all (lines : List Line) : List Message := lines.map .ofLine ++ [.stop]

/-- What the parent does NEXT; `queue` is the object behind its descriptor. -/
inductive SenderPc where
  | mqOpen
  | getline (queue : ℕ)
  | sendLine (queue : ℕ) (message : Message)
  | sendStop (queue : ℕ)
  | mqClose (queue : ℕ)
  | mqUnlink
  | waitChild
  | exited

/-- What the child does NEXT. -/
inductive ReceiverPc where
  | mqOpen
  | mqReceive (queue : ℕ)
  | mqClose (queue : ℕ)
  | exited
  deriving DecidableEq

def SenderPc.descriptor : SenderPc → Option ℕ
  | .getline q | .sendLine q _ | .sendStop q | .mqClose q => some q
  | _ => none

def ReceiverPc.descriptor : ReceiverPc → Option ℕ
  | .mqReceive q | .mqClose q => some q
  | _ => none

/-- The messages in every object, the number of objects created, what the name is bound to, the two
    processes and the lines still to come. Beside them an observer keeps the messages the child has
    received. -/
structure Mqueue where
  objects : ℕ → List Message
  count : ℕ
  name : Option ℕ
  parent : SenderPc
  child : ReceiverPc
  input : List Line
  received : List Message

/-- After `mq_unlink` and `fork`: the name is free. -/
def Mqueue.start (lines : List Line) : Mqueue := ⟨fun _ => [], 0, none, .mqOpen, .mqOpen, lines, []⟩

/-- `mq_open` with `O_CREAT`: the object the name is bound to, or a new empty one. -/
def Mqueue.mqOpen (s : Mqueue) : ℕ × Mqueue :=
  match s.name with
  | some id => (id, s)
  | none =>
    (s.count, { s with
      objects := Function.update s.objects s.count [], count := s.count + 1, name := some s.count })

/-- `mq_send`: it waits while the queue is full. -/
def Mqueue.mqSend (s : Mqueue) (id : ℕ) (message : Message) : Option Mqueue :=
  if (s.objects id).length < maxMessages then
    some { s with objects := Function.update s.objects id (s.objects id ++ [message]) }
  else none

/-- An object without a name and without a descriptor is destroyed together with its messages. -/
def Mqueue.collect (s : Mqueue) (id : ℕ) : Mqueue :=
  if s.name = some id ∨ s.parent.descriptor = some id ∨ s.child.descriptor = some id then s
  else { s with objects := Function.update s.objects id [] }

/-- The next step of the parent. -/
def Mqueue.parentStep (s : Mqueue) : SenderPc → Option Mqueue
  | .mqOpen => some { s.mqOpen.2 with parent := .getline s.mqOpen.1 }
  | .getline q =>
    match s.input with
    | [] => some { s with parent := .sendStop q }
    | line :: rest => some { s with parent := .sendLine q (.ofLine line), input := rest }
  | .sendLine q message => (s.mqSend q message).map fun s => { s with parent := .getline q }
  | .sendStop q => (s.mqSend q .stop).map fun s => { s with parent := .mqClose q }
  | .mqClose q => some ({ s with parent := .mqUnlink }.collect q)
  | .mqUnlink => s.name.map fun id => { s with name := none, parent := .waitChild }.collect id
  | .waitChild => if s.child = .exited then some { s with parent := .exited } else none
  | .exited => none

/-- The next step of the child; `mq_receive` waits while the queue is empty. -/
def Mqueue.childStep (s : Mqueue) : ReceiverPc → Option Mqueue
  | .mqOpen => some { s.mqOpen.2 with child := .mqReceive s.mqOpen.1 }
  | .mqReceive q =>
    match s.objects q with
    | [] => none
    | message :: rest =>
      some { s with
        objects := Function.update s.objects q rest
        received := s.received ++ [message]
        child := if message.messageType = .stop then .mqClose q else .mqReceive q }
  | .mqClose q => some ({ s with child := .exited }.collect q)
  | .exited => none

def Mqueue.step (s : Mqueue) : Process → Option Mqueue
  | .parent => s.parentStep s.parent
  | .child => s.childStep s.child

/-- **Both processes have exited, and the child has received one message for every line and then the
    stop message.** -/
def Mqueue.Delivered (lines : List Line) (s : Mqueue) : Prop :=
  s.parent = .exited ∧ s.child = .exited ∧ s.received = Message.all lines

/-- **The parent unlinks the name only after the child has opened the queue.** -/
def Mqueue.Joined (s : Mqueue) : Process → Prop
  | .parent => s.parent = .mqUnlink → s.child ≠ .mqOpen
  | .child => True

/-! ## 2. What both sides know -/

/-- The parent has sent `sent` so far, all of it into the first object. -/
def SenderPc.Sending (lines input : List Line) (sent : List Message) : SenderPc → Prop
  | .mqOpen => input = lines ∧ sent = []
  | .getline q => q = 0 ∧ ∃ done, lines = done ++ input ∧ sent = done.map .ofLine
  | .sendLine q message => q = 0 ∧ ∃ done line, lines = done ++ line :: input ∧
      sent = done.map .ofLine ∧ message = .ofLine line
  | .sendStop q => q = 0 ∧ sent = lines.map .ofLine
  | .mqClose q => q = 0 ∧ sent = Message.all lines
  | .mqUnlink => sent = Message.all lines
  | .waitChild | .exited => False

/-- The child has received `received` so far. It leaves its loop with everything received. -/
def ReceiverPc.Receiving (lines : List Line) (received : List Message) : ReceiverPc → Prop
  | .mqOpen => received = []
  | .mqReceive q => q = 0 ∧ ∀ message ∈ received, message.messageType = .default
  | .mqClose q => q = 0 ∧ received = Message.all lines
  | .exited => received = Message.all lines

/-- **A run in which the child has found, or can still find, the queue of the parent.** -/
inductive Mqueue.Shared (lines : List Line) (s : Mqueue) : Prop where
  | fresh (hp : s.parent = .mqOpen) (hc : s.child = .mqOpen) (hn : s.name = none)
      (hcount : s.count = 0) (hin : s.input = lines) (hr : s.received = [])
  | linked (sent : List Message) (hn : s.name = some 0) (hcount : s.count = 1)
      (hp : s.parent.Sending lines s.input sent) (hc : s.child.Receiving lines s.received)
      (hq : s.received ++ s.objects 0 = sent) (hlen : (s.objects 0).length ≤ maxMessages)
  | unlinked (hp : s.parent = .waitChild ∨ s.parent = .exited ∧ s.child = .exited)
      (hopen : s.child ≠ .mqOpen) (hc : s.child.Receiving lines s.received)
      (hq : s.received ++ s.objects 0 = Message.all lines)

/-- **A run in which the parent has unlinked the name before the child came**; it can have sent ten
    messages at most. -/
structure Mqueue.Orphaned (lines : List Line) (s : Mqueue) : Prop where
  parent : s.parent = .waitChild
  child : s.child = .mqOpen ∧ s.name = none ∧ s.count = 1 ∨
    s.child = .mqReceive 1 ∧ s.objects 1 = []
  few : lines.length < maxMessages

section Steps

variable {lines : List Line} {s s' : Mqueue}

theorem shared_start (lines : List Line) : (Mqueue.start lines).Shared lines :=
  .fresh rfl rfl rfl rfl rfl rfl

theorem Mqueue.Orphaned.not_shared (h : s.Orphaned lines) : ¬ s.Shared lines := by
  intro hs
  have hp := h.parent
  cases hs with
  | fresh hp' => rw [hp] at hp'; cases hp'
  | linked sent _ _ hp' => rw [hp] at hp'; exact hp'
  | unlinked _ hopen hc =>
      rcases h.child with ⟨hchild, -⟩ | ⟨hchild, -⟩
      · exact hopen hchild
      · rw [hchild] at hc
        exact absurd hc.1 Nat.one_ne_zero

/-- A stop message is the last one of all. -/
theorem stop_last {received rest : List Message} {message : Message}
    (h : received ++ message :: rest = Message.all lines) (hstop : message.messageType = .stop) :
    received ++ [message] = Message.all lines ∧ rest = [] := by
  rcases List.eq_nil_or_concat rest with rfl | ⟨front, last, rfl⟩
  · exact ⟨h, rfl⟩
  · have hlines : received ++ message :: front = lines.map .ofLine := by
      have h' : (received ++ message :: front) ++ [last] = lines.map .ofLine ++ [.stop] := by
        rw [List.append_assoc]
        simpa [Message.all] using h
      exact (List.append_inj' h' rfl).1
    have hmem : message ∈ lines.map Message.ofLine := by
      rw [← hlines]
      exact List.mem_append_right _ List.mem_cons_self
    obtain ⟨line, -, rfl⟩ := List.mem_map.mp hmem
    cases hstop

theorem Message.type_of_mem_map {done : List Line} :
    ∀ message ∈ done.map Message.ofLine, message.messageType = .default := by
  intro message hm
  obtain ⟨line, -, rfl⟩ := List.mem_map.mp hm
  rfl

/-- What the parent has sent is all of it, or there is no stop message in it. -/
theorem SenderPc.Sending.types {sent : List Message} {input : List Line} {pc : SenderPc}
    (h : pc.Sending lines input sent) :
    sent = Message.all lines ∨ ∀ message ∈ sent, message.messageType = .default := by
  cases pc with
  | mqOpen => exact .inr fun m hm => by rw [h.2] at hm; cases hm
  | getline q => obtain ⟨-, done, -, rfl⟩ := h; exact .inr Message.type_of_mem_map
  | sendLine q message => obtain ⟨-, done, line, -, rfl, -⟩ := h; exact .inr Message.type_of_mem_map
  | sendStop q => obtain ⟨-, rfl⟩ := h; exact .inr Message.type_of_mem_map
  | mqClose q => exact .inl h.2
  | mqUnlink => exact .inl h
  | waitChild => exact h.elim
  | exited => exact h.elim

/-- The child takes the first message of the queue. -/
theorem receiving_next {received rest : List Message} {message : Message}
    (hsent : received ++ message :: rest = Message.all lines ∨
      ∀ m ∈ received ++ message :: rest, m.messageType = .default)
    (hdefault : ∀ m ∈ received, m.messageType = .default) :
    (if message.messageType = .stop then ReceiverPc.mqClose 0 else .mqReceive 0).Receiving lines
      (received ++ [message]) := by
  split
  next hstop =>
    rcases hsent with hall | hno
    · exact ⟨rfl, (stop_last hall hstop).1⟩
    · rw [hno message (List.mem_append_right _ List.mem_cons_self)] at hstop
      cases hstop
  next hstop =>
    refine ⟨rfl, fun m hm => ?_⟩
    rcases List.mem_append.mp hm with hm | hm
    · exact hdefault m hm
    · rw [List.mem_singleton.mp hm]
      cases hm : message.messageType with
      | default => rfl
      | stop => exact absurd hm hstop

theorem Mqueue.mqOpen_bound {id : ℕ} (hn : s.name = some id) : s.mqOpen = (id, s) := by
  unfold Mqueue.mqOpen
  rw [hn]

theorem Mqueue.mqOpen_free (hn : s.name = none) : s.mqOpen = (s.count, { s with
    objects := Function.update s.objects s.count [], count := s.count + 1
    name := some s.count }) := by
  unfold Mqueue.mqOpen
  rw [hn]

/-- The first process to open the queue finds it empty. -/
theorem Mqueue.mqOpen_fresh (hn : s.name = none) (hcount : s.count = 0) (hr : s.received = []) :
    s.mqOpen.1 = 0 ∧ s.mqOpen.2.name = some 0 ∧ s.mqOpen.2.count = 1 ∧
      s.mqOpen.2.received ++ s.mqOpen.2.objects 0 = [] ∧ s.mqOpen.2.input = s.input ∧
      s.mqOpen.2.parent = s.parent ∧ s.mqOpen.2.child = s.child := by
  rw [Mqueue.mqOpen_free hn, hcount]
  refine ⟨rfl, rfl, rfl, ?_, rfl, rfl, rfl⟩
  show s.received ++ Function.update s.objects 0 [] 0 = []
  rw [hr, Function.update_self]
  rfl

/-! ### The parent -/

theorem Mqueue.mqSend_eq {id : ℕ} {message : Message} (h : s.mqSend id message = some s') :
    (s.objects id).length < maxMessages ∧
      s' = { s with objects := Function.update s.objects id (s.objects id ++ [message]) } := by
  unfold Mqueue.mqSend at h
  split at h
  next hlt => exact ⟨hlt, (Option.some.inj h).symm⟩
  next => cases h

/-- A message joins the queue. -/
theorem Mqueue.Shared.sent {sent : List Message} {message : Message} {pc : SenderPc}
    (hn : s.name = some 0) (hcount : s.count = 1) (hc : s.child.Receiving lines s.received)
    (hq : s.received ++ s.objects 0 = sent) (hs : s.mqSend 0 message = some s')
    (hp : pc.Sending lines s.input (sent ++ [message])) :
    Mqueue.Shared lines { s' with parent := pc } := by
  obtain ⟨hlt, rfl⟩ := Mqueue.mqSend_eq hs
  have hzero : Function.update s.objects 0 (s.objects 0 ++ [message]) 0 =
      s.objects 0 ++ [message] := Function.update_self _ _ _
  refine .linked (sent ++ [message]) hn hcount hp hc ?_ ?_
  · show s.received ++ Function.update s.objects 0 (s.objects 0 ++ [message]) 0 = _
    rw [hzero, ← hq, List.append_assoc]
  · show (Function.update s.objects 0 (s.objects 0 ++ [message]) 0).length ≤ _
    rw [hzero, List.length_append]
    exact hlt

/-- `mq_unlink` with the child inside leaves the object to the child. -/
theorem Mqueue.Shared.unlink (hc : s.child.Receiving lines s.received) (hopen : s.child ≠ .mqOpen)
    (hq : s.received ++ s.objects 0 = Message.all lines) :
    Mqueue.Shared lines ({ s with name := none, parent := .waitChild }.collect 0) := by
  unfold Mqueue.collect
  split
  next => exact .unlinked (.inl rfl) hopen hc hq
  next hgone =>
    -- Without a descriptor the child has exited, and so has received everything.
    have hall : s.received = Message.all lines := by
      cases hpc : s.child with
      | mqOpen => exact absurd hpc hopen
      | mqReceive q => rw [hpc] at hc hgone; exact absurd (.inr (.inr (congrArg some hc.1))) hgone
      | mqClose q => rw [hpc] at hc; exact hc.2
      | exited => rw [hpc] at hc; exact hc
    refine .unlinked (.inl rfl) hopen hc ?_
    show s.received ++ Function.update s.objects 0 [] 0 = _
    rw [Function.update_self, List.append_nil]
    exact hall

/-- `mq_unlink` before the child has opened the queue destroys it. -/
theorem orphaned_unlink (hchild : s.child = .mqOpen) (hcount : s.count = 1)
    (hc : s.child.Receiving lines s.received)
    (hq : s.received ++ s.objects 0 = Message.all lines)
    (hlen : (s.objects 0).length ≤ maxMessages) :
    Mqueue.Orphaned lines ({ s with name := none, parent := .waitChild }.collect 0) := by
  have hgone : ¬ ((none : Option ℕ) = some 0 ∨ SenderPc.waitChild.descriptor = some 0 ∨
      s.child.descriptor = some 0) := by
    rw [hchild]
    rintro (e | e | e) <;> cases e
  have hfew : lines.length < maxMessages := by
    rw [hchild] at hc
    rw [show s.received = [] from hc, List.nil_append] at hq
    rw [hq, Message.all, List.length_append, List.length_map] at hlen
    exact hlen
  unfold Mqueue.collect
  rw [if_neg hgone]
  exact ⟨rfl, .inl ⟨hchild, rfl, hcount⟩, hfew⟩

/-- **A step of the parent** keeps the queue shared, unless it unlinks the name too early. -/
theorem Mqueue.Shared.parent_step (h : s.Shared lines) (hs : s.parentStep s.parent = some s') :
    (s.Joined .parent → s'.Shared lines) ∧ (¬ s.Joined .parent → s'.Orphaned lines) := by
  have hkeep : s.parent ≠ .mqUnlink → s'.Shared lines →
      (s.Joined .parent → s'.Shared lines) ∧ (¬ s.Joined .parent → s'.Orphaned lines) :=
    fun hne h' => ⟨fun _ => h', fun hj => absurd (fun e => absurd e hne) hj⟩
  cases h with
  | fresh hp hc hn hcount hin hr =>
      refine hkeep (by rw [hp]; nofun) ?_
      obtain ⟨hid, hname, hone, hq, hinput, -, hchild⟩ := Mqueue.mqOpen_fresh hn hcount hr
      rw [hp, Mqueue.parentStep] at hs
      obtain rfl := Option.some.inj hs
      refine .linked [] hname hone ⟨hid, [], ?_, rfl⟩ ?_ hq ?_
      · show lines = [] ++ s.mqOpen.2.input
        rw [hinput, hin]
        rfl
      · show s.mqOpen.2.child.Receiving lines _
        rw [hchild, hc]
        exact (List.append_eq_nil_iff.mp hq).1
      · show (s.mqOpen.2.objects 0).length ≤ _
        rw [(List.append_eq_nil_iff.mp hq).2]
        exact Nat.zero_le _
  | linked sent hn hcount hp hc hq hlen =>
      cases hpc : s.parent with
      | mqOpen =>
          rw [hpc] at hp hs
          refine hkeep (by rw [hpc]; nofun) ?_
          rw [Mqueue.parentStep, Mqueue.mqOpen_bound hn] at hs
          obtain rfl := Option.some.inj hs
          obtain ⟨hin, rfl⟩ := hp
          exact .linked [] hn hcount ⟨rfl, [], hin.symm, rfl⟩ hc hq hlen
      | getline q =>
          rw [hpc] at hp hs
          refine hkeep (by rw [hpc]; nofun) ?_
          obtain ⟨rfl, done, hlines, hsent⟩ := hp
          simp only [Mqueue.parentStep] at hs
          split at hs <;> obtain rfl := Option.some.inj hs
          next hin =>
            rw [hin, List.append_nil] at hlines
            exact .linked sent hn hcount ⟨rfl, hlines ▸ hsent⟩ hc hq hlen
          next line rest hin =>
            rw [hin] at hlines
            exact .linked sent hn hcount ⟨rfl, done, line, hlines, hsent, rfl⟩ hc hq hlen
      | sendLine q message =>
          rw [hpc] at hp hs
          refine hkeep (by rw [hpc]; nofun) ?_
          obtain ⟨rfl, done, line, hlines, hsent, rfl⟩ := hp
          obtain ⟨t, ht, rfl⟩ := Option.map_eq_some_iff.mp hs
          refine Mqueue.Shared.sent hn hcount hc hq ht ⟨rfl, done ++ [line], ?_, ?_⟩
          · rw [hlines, List.append_assoc]
            rfl
          · rw [hsent, List.map_append]
            rfl
      | sendStop q =>
          rw [hpc] at hp hs
          refine hkeep (by rw [hpc]; nofun) ?_
          obtain ⟨rfl, hsent⟩ := hp
          obtain ⟨t, ht, rfl⟩ := Option.map_eq_some_iff.mp hs
          exact Mqueue.Shared.sent hn hcount hc hq ht ⟨rfl, by rw [hsent]; rfl⟩
      | mqClose q =>
          rw [hpc] at hp hs
          refine hkeep (by rw [hpc]; nofun) ?_
          obtain ⟨rfl, hsent⟩ := hp
          obtain rfl := Option.some.inj hs
          -- The name still leads to the object.
          unfold Mqueue.collect
          rw [if_pos (.inl hn)]
          exact .linked sent hn hcount hsent hc hq hlen
      | mqUnlink =>
          rw [hpc] at hp hs
          rw [Mqueue.parentStep, hn] at hs
          obtain rfl := Option.some.inj hs
          obtain rfl : sent = Message.all lines := hp
          refine ⟨fun hj => Mqueue.Shared.unlink hc (hj hpc) hq, fun hj => ?_⟩
          have hchild : s.child = .mqOpen :=
            Classical.byContradiction fun hne => hj fun _ => hne
          exact orphaned_unlink hchild hcount hc hq hlen
      | waitChild => rw [hpc] at hp; exact hp.elim
      | exited => rw [hpc] at hp; exact hp.elim
  | unlinked hp hopen hc hq =>
      rcases hp with hp | ⟨hp, -⟩
      · refine hkeep (by rw [hp]; nofun) ?_
        rw [hp, Mqueue.parentStep] at hs
        split at hs
        next hexit =>
          obtain rfl := Option.some.inj hs
          exact .unlinked (.inr ⟨rfl, hexit⟩) hopen hc hq
        next => cases hs
      · rw [hp] at hs
        cases hs

/-! ### The child -/

/-- `mq_close` of the child: it has received everything, so nothing is lost with the object. -/
theorem Mqueue.collect_empty (h : s.objects 0 = []) : s.collect 0 = s := by
  unfold Mqueue.collect
  split
  · rfl
  · rw [← h, Function.update_eq_self]

theorem Mqueue.queue_empty (h : s.received ++ s.objects 0 = s.received) : s.objects 0 = [] :=
  List.append_right_eq_self.mp h

/-- **A step of the child** keeps the queue shared. -/
theorem Mqueue.Shared.child_step (h : s.Shared lines) (hs : s.childStep s.child = some s') :
    s'.Shared lines := by
  cases h with
  | fresh hp hc hn hcount hin hr =>
      obtain ⟨hid, hname, hone, hq, hinput, hparent, -⟩ := Mqueue.mqOpen_fresh hn hcount hr
      obtain ⟨hnone, hempty⟩ := List.append_eq_nil_iff.mp hq
      rw [hc, Mqueue.childStep] at hs
      obtain rfl := Option.some.inj hs
      refine .linked [] hname hone ?_ ⟨hid, fun m hm => ?_⟩ hq ?_
      · show s.mqOpen.2.parent.Sending lines s.mqOpen.2.input []
        rw [hparent, hp, hinput]
        exact ⟨hin, rfl⟩
      · exact nomatch hnone ▸ hm
      · show (s.mqOpen.2.objects 0).length ≤ _
        rw [hempty]
        exact Nat.zero_le _
  | linked sent hn hcount hp hc hq hlen =>
      cases hpc : s.child with
      | mqOpen =>
          rw [hpc] at hc hs
          rw [Mqueue.childStep, Mqueue.mqOpen_bound hn] at hs
          obtain rfl := Option.some.inj hs
          refine .linked sent hn hcount hp ⟨rfl, fun m hm => ?_⟩ hq hlen
          rw [show s.received = [] from hc] at hm
          cases hm
      | mqReceive q =>
          rw [hpc] at hc hs
          obtain ⟨rfl, hdefault⟩ := hc
          simp only [Mqueue.childStep] at hs
          split at hs
          · cases hs
          next message rest hobj0 =>
            obtain rfl := Option.some.inj hs
            rw [hobj0] at hq hlen
            have htypes := hp.types
            rw [← hq] at htypes
            refine .linked sent hn hcount hp (receiving_next htypes hdefault) ?_ ?_
            · show s.received ++ [message] ++ Function.update s.objects 0 rest 0 = sent
              rw [Function.update_self, ← hq, List.append_assoc]
              rfl
            · show (Function.update s.objects 0 rest 0).length ≤ _
              rw [Function.update_self]
              exact Nat.le_of_succ_le hlen
      | mqClose q =>
          rw [hpc] at hc hs
          obtain ⟨rfl, hall⟩ := hc
          obtain rfl := Option.some.inj hs
          unfold Mqueue.collect
          rw [if_pos (.inl hn)]
          exact .linked sent hn hcount hp hall hq hlen
      | exited => rw [hpc] at hs; cases hs
  | unlinked hp hopen hc hq =>
      have hwait : s.child ≠ .exited → s.parent = .waitChild := by
        intro hne
        rcases hp with hp | ⟨-, he⟩
        · exact hp
        · exact absurd he hne
      cases hpc : s.child with
      | mqOpen => exact absurd hpc hopen
      | mqReceive q =>
          have hparent := hwait (by rw [hpc]; nofun)
          rw [hpc] at hc hs
          obtain ⟨rfl, hdefault⟩ := hc
          simp only [Mqueue.childStep] at hs
          split at hs
          · cases hs
          next message rest hobj0 =>
            obtain rfl := Option.some.inj hs
            rw [hobj0] at hq
            refine .unlinked (.inl hparent) (by show (if _ then _ else _) ≠ _; split <;> nofun)
              (receiving_next (.inl hq) hdefault) ?_
            show s.received ++ [message] ++ Function.update s.objects 0 rest 0 = _
            rw [Function.update_self, ← hq, List.append_assoc]
            rfl
      | mqClose q =>
          have hparent := hwait (by rw [hpc]; nofun)
          rw [hpc] at hc hs
          obtain ⟨rfl, hall⟩ := hc
          obtain rfl := Option.some.inj hs
          have hempty : s.objects 0 = [] := Mqueue.queue_empty (hq.trans hall.symm)
          rw [Mqueue.collect_empty (s := { s with child := .exited }) hempty]
          exact .unlinked (.inl hparent) nofun hall hq
      | exited => rw [hpc] at hs; cases hs

/-- **An orphaned run stays orphaned**: the child opens a queue of its own, which stays empty, and
    receives nothing. -/
theorem Mqueue.Orphaned.step (h : s.Orphaned lines) {a : Process} (hs : s.step a = some s') :
    s'.Orphaned lines ∧ s'.received = s.received := by
  cases a with
  | parent =>
      have hrun : s.child ≠ .exited := by
        rcases h.child with ⟨hc, -⟩ | ⟨hc, -⟩ <;> rw [hc] <;> nofun
      simp only [Mqueue.step, h.parent, Mqueue.parentStep, if_neg hrun, reduceCtorEq] at hs
  | child =>
      rcases h.child with ⟨hc, hn, hcount⟩ | ⟨hc, hempty⟩
      · rw [Mqueue.step, hc, Mqueue.childStep, Mqueue.mqOpen_free hn, hcount] at hs
        obtain rfl := Option.some.inj hs
        refine ⟨⟨h.parent, .inr ⟨rfl, ?_⟩, h.few⟩, rfl⟩
        show Function.update s.objects 1 [] 1 = []
        exact Function.update_self ..
      · simp only [Mqueue.step, hc, Mqueue.childStep, hempty, reduceCtorEq] at hs

end Steps

/-! ## 3. Runs -/

/-- The steps the parent may still cause, apart from those of lines to come. -/
def SenderPc.left : SenderPc → ℕ
  | .sendLine _ _ => 8
  | .mqOpen => 7
  | .getline _ => 6
  | .sendStop _ => 5
  | .mqClose _ => 3
  | .mqUnlink => 2
  | .waitChild => 1
  | .exited => 0

def ReceiverPc.left : ReceiverPc → ℕ
  | .mqOpen => 3
  | .mqReceive _ => 2
  | .mqClose _ => 1
  | .exited => 0

/-- **What is left of a run**, whatever the schedule: a line takes two steps of the parent, one of
    the child. -/
def Mqueue.left (s : Mqueue) : ℕ :=
  3 * s.input.length + s.parent.left + (s.objects 0).length + s.child.left

section Runs

variable {lines : List Line} {s s' : Mqueue}

theorem Mqueue.mqOpen_le (s : Mqueue) :
    (s.mqOpen.2.objects 0).length ≤ (s.objects 0).length ∧ s.mqOpen.2.input = s.input ∧
      s.mqOpen.2.parent = s.parent ∧ s.mqOpen.2.child = s.child := by
  cases hn : s.name with
  | some id => rw [Mqueue.mqOpen_bound hn]; exact ⟨Nat.le_refl _, rfl, rfl, rfl⟩
  | none =>
      rw [Mqueue.mqOpen_free hn]
      refine ⟨?_, rfl, rfl, rfl⟩
      show (Function.update s.objects s.count [] 0).length ≤ _
      by_cases e : 0 = s.count
      · rw [← e, Function.update_self]
        exact Nat.zero_le _
      · exact Nat.le_of_eq (congrArg List.length (Function.update_of_ne e _ _))

theorem Mqueue.collect_le (s : Mqueue) (id : ℕ) :
    ((s.collect id).objects 0).length ≤ (s.objects 0).length ∧ (s.collect id).input = s.input ∧
      (s.collect id).parent = s.parent ∧ (s.collect id).child = s.child := by
  unfold Mqueue.collect
  split
  · exact ⟨Nat.le_refl _, rfl, rfl, rfl⟩
  · refine ⟨?_, rfl, rfl, rfl⟩
    show (Function.update s.objects id [] 0).length ≤ _
    by_cases e : 0 = id
    · rw [← e, Function.update_self]
      exact Nat.zero_le _
    · exact Nat.le_of_eq (congrArg List.length (Function.update_of_ne e _ _))

theorem Mqueue.mqSend_le {id : ℕ} {message : Message} (h : s.mqSend id message = some s') :
    (s'.objects 0).length ≤ (s.objects 0).length + 1 ∧ s'.input = s.input ∧ s'.child = s.child := by
  obtain ⟨-, rfl⟩ := Mqueue.mqSend_eq h
  refine ⟨?_, rfl, rfl⟩
  show (Function.update s.objects id (s.objects id ++ [message]) 0).length ≤ _
  by_cases e : 0 = id
  · rw [← e, Function.update_self, List.length_append]
    exact Nat.le_refl _
  · rw [Function.update_of_ne e]
    exact Nat.le_succ _

theorem mqueue_left_parent {pc : SenderPc} (hpc : s.parent = pc) (hs : s.parentStep pc = some s') :
    s'.left < s.left := by
  unfold Mqueue.left
  rw [hpc]
  cases pc with
  | mqOpen =>
      obtain ⟨hlen, hin, -, hc⟩ := s.mqOpen_le
      obtain rfl := Option.some.inj hs
      simp only [SenderPc.left, hin, hc]
      omega
  | getline q =>
      simp only [Mqueue.parentStep] at hs
      split at hs <;> obtain rfl := Option.some.inj hs
      next hin => simp only [hin, SenderPc.left]; omega
      next hin => simp only [hin, SenderPc.left, List.length_cons]; omega
  | sendLine q message =>
      obtain ⟨t, ht, rfl⟩ := Option.map_eq_some_iff.mp hs
      obtain ⟨hlen, hin, hc⟩ := Mqueue.mqSend_le ht
      simp only [SenderPc.left, hin, hc]
      omega
  | sendStop q =>
      obtain ⟨t, ht, rfl⟩ := Option.map_eq_some_iff.mp hs
      obtain ⟨hlen, hin, hc⟩ := Mqueue.mqSend_le ht
      simp only [SenderPc.left, hin, hc]
      omega
  | mqClose q =>
      obtain rfl := Option.some.inj hs
      obtain ⟨hlen, hin, hp, hc⟩ := ({ s with parent := .mqUnlink } : Mqueue).collect_le q
      rw [hin, hp, hc]
      exact Nat.add_lt_add_right (Nat.add_lt_add_of_lt_of_le (by simp [SenderPc.left]) hlen) _
  | mqUnlink =>
      obtain ⟨id, -, rfl⟩ := Option.map_eq_some_iff.mp hs
      obtain ⟨hlen, hin, hp, hc⟩ :=
        ({ s with name := none, parent := .waitChild } : Mqueue).collect_le id
      rw [hin, hp, hc]
      exact Nat.add_lt_add_right (Nat.add_lt_add_of_lt_of_le (by simp [SenderPc.left]) hlen) _
  | waitChild =>
      simp only [Mqueue.parentStep] at hs
      split at hs
      · obtain rfl := Option.some.inj hs
        simp only [SenderPc.left]
        omega
      · cases hs
  | exited => cases hs

theorem mqueue_left_child {pc : ReceiverPc} (hpc : s.child = pc) (hs : s.childStep pc = some s')
    (hfirst : ∀ q, pc = .mqReceive q → s.objects q ≠ [] → q = 0) : s'.left < s.left := by
  unfold Mqueue.left
  rw [hpc]
  cases pc with
  | mqOpen =>
      obtain ⟨hlen, hin, hp, -⟩ := s.mqOpen_le
      obtain rfl := Option.some.inj hs
      simp only [ReceiverPc.left, hin, hp]
      omega
  | mqReceive q =>
      simp only [Mqueue.childStep] at hs
      split at hs
      · cases hs
      next message rest hq =>
        obtain rfl := hfirst q rfl (by rw [hq]; nofun)
        obtain rfl := Option.some.inj hs
        have hchild : (if message.messageType = .stop then ReceiverPc.mqClose 0
            else .mqReceive 0).left ≤ 2 := by split <;> decide
        have hleft : (ReceiverPc.mqReceive 0).left = 2 := rfl
        simp only [Function.update_self, hq, List.length_cons]
        omega
  | mqClose q =>
      obtain rfl := Option.some.inj hs
      obtain ⟨hlen, hin, hp, hc⟩ := ({ s with child := .exited } : Mqueue).collect_le q
      rw [hin, hp, hc]
      exact Nat.add_lt_add_of_le_of_lt (Nat.add_le_add_left hlen _)
        (by simp [ReceiverPc.left])
  | exited => cases hs

theorem Mqueue.Shared.receives_first (h : s.Shared lines) {q : ℕ} (hc : s.child = .mqReceive q) :
    q = 0 := by
  cases h with
  | fresh _ hc' => rw [hc] at hc'; cases hc'
  | linked _ _ _ _ hc' => rw [hc] at hc'; exact hc'.1
  | unlinked _ _ hc' => rw [hc] at hc'; exact hc'.1

/-- The queue is shared or the child has been left alone. -/
def Mqueue.Tracked (lines : List Line) (s : Mqueue) : Prop := s.Shared lines ∨ s.Orphaned lines

/-- **What a step does to a shared queue**: it stays shared exactly when the step is joined. -/
theorem Mqueue.Tracked.shared_iff (h : s.Tracked lines) {a : Process} (hs : s.step a = some s') :
    s'.Tracked lines ∧ (s'.Shared lines ↔ s.Shared lines ∧ s.Joined a) := by
  rcases h with h | h
  · cases a with
    | parent =>
        obtain ⟨hkeep, hlose⟩ := h.parent_step hs
        by_cases hj : s.Joined .parent
        · exact ⟨.inl (hkeep hj), fun _ => ⟨h, hj⟩, fun _ => hkeep hj⟩
        · exact ⟨.inr (hlose hj), fun h' => absurd h' (hlose hj).not_shared,
            fun h' => absurd h'.2 hj⟩
    | child =>
        have h' := h.child_step hs
        exact ⟨.inl h', fun _ => ⟨h, trivial⟩, fun _ => h'⟩
  · have h' := (h.step hs).1
    exact ⟨.inr h', fun hsh => absurd hsh h'.not_shared, fun hsh => absurd hsh.1 h.not_shared⟩

theorem Mqueue.Tracked.left_step (h : s.Tracked lines) {a : Process} (hs : s.step a = some s') :
    s'.left < s.left := by
  cases a with
  | parent => exact mqueue_left_parent rfl hs
  | child =>
      refine mqueue_left_child rfl hs fun q hc hne => ?_
      rcases h with h | h
      · exact h.receives_first hc
      · rcases h.child with ⟨hopen, -⟩ | ⟨hreceive, hempty⟩
        · rw [hc] at hopen
          cases hopen
        · rw [hc] at hreceive
          obtain rfl := ReceiverPc.mqReceive.inj hreceive
          exact absurd hempty hne

/-- What the parent has sent is the beginning of all it sends. -/
theorem SenderPc.Sending.sent_all {sent : List Message} {input : List Line} {pc : SenderPc}
    (h : pc.Sending lines input sent) : sent <+: Message.all lines := by
  cases pc with
  | mqOpen => rw [h.2]; exact List.nil_prefix
  | getline q =>
      obtain ⟨-, done, rfl, rfl⟩ := h
      rw [Message.all, List.map_append, List.append_assoc]
      exact List.prefix_append _ _
  | sendLine q message =>
      obtain ⟨-, done, line, rfl, rfl, -⟩ := h
      rw [Message.all, List.map_append, List.append_assoc]
      exact List.prefix_append _ _
  | sendStop q => rw [h.2]; exact List.prefix_append _ _
  | mqClose q => exact h.2 ▸ List.prefix_refl sent
  | mqUnlink => exact (show sent = _ from h) ▸ List.prefix_refl sent
  | waitChild => exact h.elim
  | exited => exact h.elim

theorem Mqueue.Shared.received_all (h : s.Shared lines) : s.received <+: Message.all lines := by
  cases h with
  | fresh _ _ _ _ _ hr => rw [hr]; exact List.nil_prefix
  | linked sent _ _ hp _ hq _ =>
      have hsent : s.received <+: sent := hq ▸ List.prefix_append _ _
      exact hsent.trans hp.sent_all
  | unlinked _ _ _ hq => exact hq ▸ List.prefix_append _ _

/-- A child that the parent leaves alone has received nothing. -/
theorem Mqueue.Tracked.orphan_step (h : s.Tracked lines) (hno : s.Orphaned lines → s.received = [])
    {a : Process} (hs : s.step a = some s') (ho : s'.Orphaned lines) : s'.received = [] := by
  rcases h with hsh | ho'
  · have hnot : ¬ s.Joined a := fun hj =>
      ho.not_shared ((Mqueue.Tracked.shared_iff (.inl hsh) hs).2.mpr ⟨hsh, hj⟩)
    cases a with
    | child => exact absurd trivial hnot
    | parent =>
        obtain ⟨hp, hc⟩ := Classical.not_imp.mp hnot
        have hc := Classical.not_not.mp hc
        rw [Mqueue.step, hp] at hs
        obtain ⟨id, -, rfl⟩ := Option.map_eq_some_iff.mp hs
        have hr : s.received = [] := by
          cases hsh with
          | fresh _ _ _ _ _ hr => exact hr
          | linked _ _ _ _ hc' _ _ => rw [hc] at hc'; exact hc'
          | unlinked _ hopen _ _ => exact absurd hc hopen
        unfold Mqueue.collect
        split <;> exact hr
  · rw [(ho'.step hs).2]
    exact hno ho'

/-- **In every run the child receives what the parent sends, in order, as far as it gets.** -/
theorem received_reach (h : Reach Mqueue.step (.start lines) s) :
    s.received <+: Message.all lines := by
  obtain ⟨hI, hno⟩ := h.invariant
    (I := fun s => s.Tracked lines ∧ (s.Orphaned lines → s.received = []))
    ⟨.inl (shared_start lines), fun _ => rfl⟩
    fun _ _ _ ⟨hI, hno⟩ _ hs => ⟨(hI.shared_iff hs).1, hI.orphan_step hno hs⟩
  rcases hI with hsh | ho
  · exact hsh.received_all
  · rw [hno ho]
    exact List.nil_prefix

/-- A child that can do nothing waits at an empty queue for the stop message, or has exited. -/
theorem Mqueue.child_stuck (hc : s.child.Receiving lines s.received)
    (hchild : s.childStep s.child = none) :
    (s.objects 0 = [] ∧ ∀ message ∈ s.received, message.messageType = .default) ∨
      s.child = .exited ∧ s.received = Message.all lines := by
  cases hpc : s.child with
  | mqOpen => rw [hpc] at hchild; cases hchild
  | mqReceive q =>
      rw [hpc] at hc hchild
      obtain ⟨rfl, hdefault⟩ := hc
      simp only [Mqueue.childStep] at hchild
      split at hchild
      next hempty => exact .inl ⟨hempty, hdefault⟩
      next => cases hchild
  | mqClose q => rw [hpc] at hchild; cases hchild
  | exited =>
      rw [hpc] at hc
      exact .inr ⟨rfl, hc⟩

theorem Message.stop_mem_all (lines : List Line) : Message.stop ∈ Message.all lines :=
  List.mem_append_right _ (List.mem_singleton_self _)

/-- While the stop message has not been sent, parent and child are not stuck together. -/
theorem Mqueue.mqSend_ne_none (hc : s.child.Receiving lines s.received)
    (hchild : s.childStep s.child = none)
    (hdefault : ∀ m ∈ s.received ++ s.objects 0, m.messageType = .default) (message : Message) :
    s.mqSend 0 message ≠ none := by
  intro hsend
  rcases Mqueue.child_stuck hc hchild with ⟨hempty, -⟩ | ⟨-, hall⟩
  · unfold Mqueue.mqSend at hsend
    rw [hempty, if_pos (by decide)] at hsend
    cases hsend
  · have hstop : Message.stop ∈ s.received := hall ▸ Message.stop_mem_all lines
    cases hdefault _ (List.mem_append_left _ hstop)

/-- **Where no step is possible in a shared run, everything was delivered.** -/
theorem Mqueue.Shared.at_end (h : s.Shared lines) (hstuck : Stuck Mqueue.step s) :
    s.Delivered lines := by
  have hparent : s.parentStep s.parent = none := hstuck .parent
  have hchild : s.childStep s.child = none := hstuck .child
  cases h with
  | fresh hp => rw [hp] at hparent; cases hparent
  | linked sent hn hcount hp hc hq hlen =>
      cases hpc : s.parent <;> rw [hpc] at hp hparent
      case mqOpen => cases hparent
      case getline q =>
        cases hin : s.input <;> simp only [Mqueue.parentStep, hin, reduceCtorEq] at hparent
      case sendLine q message =>
        obtain ⟨rfl, done, line, -, hsent, -⟩ := hp
        rw [← hq] at hsent
        exact absurd (Option.map_eq_none_iff.mp hparent)
          (Mqueue.mqSend_ne_none hc hchild (hsent ▸ Message.type_of_mem_map) message)
      case sendStop q =>
        obtain ⟨rfl, hsent⟩ := hp
        rw [← hq] at hsent
        exact absurd (Option.map_eq_none_iff.mp hparent)
          (Mqueue.mqSend_ne_none hc hchild (hsent ▸ Message.type_of_mem_map) .stop)
      case mqClose q => cases hparent
      case mqUnlink => rw [Mqueue.parentStep, hn] at hparent; cases hparent
      all_goals exact hp.elim
  | unlinked hp hopen hc hq =>
      rcases Mqueue.child_stuck hc hchild with ⟨hempty, hdefault⟩ | ⟨hexited, hall⟩
      · rw [hempty, List.append_nil] at hq
        cases hdefault _ (hq ▸ Message.stop_mem_all lines)
      · rcases hp with hp | ⟨hp, -⟩
        · rw [hp, Mqueue.parentStep, if_pos hexited] at hparent
          cases hparent
        · exact ⟨hp, hexited, hall⟩

/-! ### A parent that runs alone -/

/-- The parent sends the rest of its lines, as long as they fit into the queue. -/
theorem sends_alone {rest : List Line} : ∀ {s : Mqueue}, s.parent = .getline 0 → s.input = rest →
    s.name = some 0 → s.child = .mqOpen → (s.objects 0).length + rest.length < maxMessages →
    ∃ s', Reach Mqueue.step s s' ∧ s'.parent = .getline 0 ∧ s'.input = [] ∧ s'.name = some 0 ∧
      s'.child = .mqOpen ∧ (s'.objects 0).length < maxMessages := by
  induction rest with
  | nil => exact fun hp hin hn hc hlen => ⟨_, .start, hp, hin, hn, hc, hlen⟩
  | cons line rest ih =>
      intro s hp hin hn hc hlen
      have hget : s.step .parent =
          some { s with parent := .sendLine 0 (.ofLine line), input := rest } := by
        simp only [Mqueue.step, hp, Mqueue.parentStep, hin]
      rw [List.length_cons] at hlen
      let sent : Mqueue := { s with
        parent := .getline 0, input := rest
        objects := Function.update s.objects 0 (s.objects 0 ++ [.ofLine line]) }
      have hsend : Mqueue.step { s with parent := .sendLine 0 (.ofLine line), input := rest }
          .parent = some sent := by
        simp only [Mqueue.step, Mqueue.parentStep, Mqueue.mqSend]
        rw [if_pos (by omega)]
        rfl
      have hlen' : (sent.objects 0).length + rest.length < maxMessages := by
        show (Function.update s.objects 0 (s.objects 0 ++ [.ofLine line]) 0).length + _ < _
        rw [Function.update_self, List.length_append, List.length_singleton]
        omega
      obtain ⟨s', hs', hend⟩ := ih (s := sent) rfl rfl hn hc hlen'
      exact ⟨s', .trans (.next _ _ .parent (.single trivial hget) trivial hsend) hs', hend⟩

/-- With fewer than ten lines the parent can be done before the child comes. -/
theorem unlinks_alone (hfew : lines.length < maxMessages) :
    ∃ s, Reach Mqueue.step (.start lines) s ∧ s.parent = .waitChild ∧ s.child = .mqOpen := by
  have hopen : (Mqueue.start lines).step .parent = some { Mqueue.start lines with
      objects := Function.update (fun _ => []) 0 [], count := 1, name := some 0
      parent := .getline 0 } := rfl
  obtain ⟨s, hs, hp, hin, hn, hc, hlen⟩ := sends_alone
    (s := { Mqueue.start lines with
      objects := Function.update (fun _ => []) 0 [], count := 1, name := some 0
      parent := .getline 0 }) rfl (show lines = lines from rfl) rfl rfl (by simpa using hfew)
  have h1 : s.step .parent = some { s with parent := .sendStop 0 } := by
    simp only [Mqueue.step, hp, Mqueue.parentStep, hin]
  have h2 : Mqueue.step { s with parent := .sendStop 0 } .parent = some { s with
      parent := .mqClose 0
      objects := Function.update s.objects 0 (s.objects 0 ++ [.stop]) } := by
    simp only [Mqueue.step, Mqueue.parentStep, Mqueue.mqSend]
    rw [if_pos hlen]
    rfl
  have h3 : Mqueue.step { s with
      parent := .mqClose 0
      objects := Function.update s.objects 0 (s.objects 0 ++ [.stop]) } .parent = some { s with
      parent := .mqUnlink
      objects := Function.update s.objects 0 (s.objects 0 ++ [.stop]) } := by
    simp only [Mqueue.step, Mqueue.parentStep, Mqueue.collect]
    rw [if_pos (.inl hn)]
  have h4 : Mqueue.step { s with
      parent := .mqUnlink
      objects := Function.update s.objects 0 (s.objects 0 ++ [.stop]) } .parent =
      some (Mqueue.collect { s with
        name := none, parent := .waitChild
        objects := Function.update s.objects 0 (s.objects 0 ++ [.stop]) } 0) := by
    simp only [Mqueue.step, Mqueue.parentStep, hn, Option.map_some]
  obtain ⟨-, -, hp', hc'⟩ := Mqueue.collect_le { s with
        name := none, parent := .waitChild
        objects := Function.update s.objects 0 (s.objects 0 ++ [.stop]) } 0
  have hsent : Reach Mqueue.step s _ := .next _ _ _ (.single trivial h1) trivial h2
  have hclosed := hsent.next _ _ _ trivial h3
  have hrun : Reach Mqueue.step s _ := hclosed.next _ _ _ trivial h4
  exact ⟨_, .trans (.trans (.single trivial hopen) hs) hrun, hp', hc'.trans hc⟩

end Runs

/-! ## 4. Delivery -/

/-- **Every run ends. A maximal run delivers every line and then the stop message exactly when the
    parent unlinked the name after the child had opened the queue**, and every maximal run does
    exactly when there are ten lines or more. -/
theorem mqueue_delivers_iff (lines : List Line) :
    (∃ n, ∀ as s, run Mqueue.step (.start lines) as = some s → as.length ≤ n) ∧
      (∀ as s, run Mqueue.step (.start lines) as = some s → Stuck Mqueue.step s →
        (s.Delivered lines ↔ Along Mqueue.step Mqueue.Joined (.start lines) as)) ∧
      (Halts Mqueue.step (.start lines) (Mqueue.Delivered lines) ↔ maxMessages ≤ lines.length) := by
  have hstart : (Mqueue.start lines).Tracked lines := .inl (shared_start lines)
  have hmeasure : ∀ (s : Mqueue) a s', s.Tracked lines → s.step a = some s' →
      s'.Tracked lines ∧ s'.left < s.left :=
    fun _ _ _ hI hs => ⟨(hI.shared_iff hs).1, hI.left_step hs⟩
  have horphan : ∀ {s : Mqueue}, s.Orphaned lines → ¬ s.Delivered lines := by
    intro s ho hd
    have hp := ho.parent
    rw [hd.1] at hp
    cases hp
  refine ⟨⟨_, fun _ _ hrun => run_length_le Mqueue.left hmeasure hstart hrun⟩,
    fun as s hrun hstuck => ?_, fun hhalts => ?_, fun hmany => ?_⟩
  · have hI : s.Tracked lines := (reach_run hrun).invariant hstart
      fun _ _ _ hI _ hs => (hI.shared_iff hs).1
    have hexact := run_along_iff (P := Mqueue.Shared lines) (C := Mqueue.Joined)
      (fun _ _ _ hI hs => (Mqueue.Tracked.shared_iff hI hs).1)
      (fun _ _ _ hI hs => (Mqueue.Tracked.shared_iff hI hs).2) hstart hrun
    rw [and_iff_right (shared_start lines)] at hexact
    rw [← hexact]
    refine ⟨fun hd => ?_, fun hsh => hsh.at_end hstuck⟩
    exact hI.resolve_right fun ho => horphan ho hd
  · refine Nat.le_of_not_lt fun hfew => ?_
    obtain ⟨s, hs, hp, hc⟩ := unlinks_alone hfew
    -- The child is left alone, whatever happens next.
    have hI : s.Tracked lines := hs.invariant hstart fun _ _ _ hI _ hstep => (hI.shared_iff hstep).1
    have ho : s.Orphaned lines := by
      refine hI.resolve_left fun hsh => ?_
      cases hsh with
      | fresh hp' => rw [hp] at hp'; cases hp'
      | linked _ _ _ hp' => rw [hp] at hp'; exact hp'
      | unlinked _ hopen => exact hopen hc
    obtain ⟨s', hs', hstuck⟩ := exists_stuck fun as t hrun =>
      run_length_le Mqueue.left hmeasure hI hrun
    have ho' : s'.Orphaned lines := hs'.invariant ho fun _ _ _ ho _ hstep => (ho.step hstep).1
    exact horphan ho' (hhalts.ends s' (hs.trans hs') hstuck)
  · refine halts_of_measure Mqueue.left hmeasure hstart fun s hI hstuck => ?_
    rcases hI with hsh | ho
    · exact hsh.at_end hstuck
    · exact absurd ho.few (Nat.not_lt.mpr hmany)

/-- **No line at all**: the parent sends the stop message, closes and unlinks before the child has
    opened the queue. The child waits at a queue of its own, the parent for the child. -/
theorem mqueue_early_unlink_deadlocks :
    ∃ s, Reach Mqueue.step (.start []) s ∧ Stuck Mqueue.step s ∧
      s.child = .mqReceive 1 ∧ s.received = [] ∧ ¬ s.Delivered [] := by
  obtain ⟨s, hs, hp⟩ := reach_of_run Mqueue.step (fun _ _ => true) (.start [])
    (List.replicate 5 .parent ++ [.child])
    (fun s => (s.step .parent).isNone && (s.step .child).isNone && s.received.isEmpty &&
      decide (s.child = .mqReceive 1)) (by decide +kernel)
  simp only [Bool.and_eq_true, Option.isNone_iff_eq_none, List.isEmpty_iff, decide_eq_true_eq] at hp
  obtain ⟨⟨⟨hparent, hchild⟩, hreceived⟩, hpc⟩ := hp
  refine ⟨s, hs.reach, fun a => ?_, hpc, hreceived, fun hd => ?_⟩
  · cases a with
    | parent => exact hparent
    | child => exact hchild
  · rw [hd.2.1] at hpc
    cases hpc

end HseMultithreading.Ipc
