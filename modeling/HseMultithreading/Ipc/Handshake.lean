/-
  File:      HseMultithreading/Ipc/Handshake.lean
  Subject:   The parent and the child of `ipc/shm_intro.cpp` and `ipc/mmap_intro.cpp`, which hand
             lines over in one shared message under two semaphores. The loops of the two programs
             are the same; how the memory was mapped does not show in them.

  * `Handshake`, `Handshake.step` -- the two processes after `fork`: the write of `m_messageSize`,
    `memset`, `memcpy`, every read, every `sem_wait` and `sem_post` is a step.
  * `Line.stored`, `Line.stored_buffer` -- the message stored for a line, byte by byte.
  * `Phase` -- the turns the two processes take, and what has been stored and read at each of them.
  * **`handshake_exclusive`** -- the processes never both stand before an access to the shared
    message, and the child has read what the parent stored, line by line.
  * **`handshake_delivers_iff`** -- every maximal run ends with both processes exited and every line
    read exactly when no line has a size of 0 as a 32-bit word: that size is the stop signal, and
    the child leaves without an answer while the parent waits for one.

  NOT here: the text of the print. The child prints the buffer as a C string; what comes out is in
  `Ipc/Receiver.lean`, the model here keeps the buffer the child reads.
-/
import HseMultithreading.Lib.Run

namespace HseMultithreading.Ipc

open StepSystem

/-! ## 1. The machine -/

/-- A line of input. -/
abbrev Line := List UInt8

/-- `SharedData::BufferSize`: `DataSize` is 4096, the size word takes four bytes of it. -/
abbrev bufferSize : ℕ := 4092

structure SharedData where
  messageSize : UInt32
  buffer : Fin bufferSize → UInt8

/-- `m_messageSize = input.size()`: the size as a 32-bit word. -/
def Line.size (line : Line) : UInt32 := UInt32.ofNat line.length

/-- `std::memcpy` of the line, as far as it fits into a buffer of `n` bytes. -/
def Line.copyTo {n : ℕ} (line : Line) (buffer : Fin n → UInt8) : Fin n → UInt8 :=
  fun j => if j.val < min line.length n then line.getD j 0 else buffer j

/-- On zeros `memcpy` leaves the bytes of the line, as far as they fit, and zeros behind them. -/
theorem Line.copyTo_zero {n : ℕ} (line : Line) (j : Fin n) :
    line.copyTo (fun _ => 0) j = line.getD j 0 := by
  unfold Line.copyTo
  split
  next => rfl
  next hout =>
    have hlength : line.length ≤ j.val := by
      have := j.isLt
      omega
    rw [List.getD_eq_getElem?_getD, List.getElem?_eq_none hlength]
    rfl

/-- The message the parent stores for a line. -/
def Line.stored (line : Line) : SharedData := ⟨line.size, line.copyTo fun _ => 0⟩

/-- **The bytes stored** are those of the line, as far as they fit, and zeros. -/
theorem Line.stored_buffer (line : Line) (j : Fin bufferSize) :
    line.stored.buffer j = line.getD j 0 := line.copyTo_zero j

/-- What the parent does NEXT. -/
inductive ParentPc where
  | getline
  | writeSize (input : Line)
  | memset (input : Line)
  | memcpy (input : Line)
  | postWrite
  | waitRead
  | writeStop
  | postStop
  | waitChild
  | exited

/-- What the child does NEXT. It reads `m_messageSize` for the test and again for the print. -/
inductive ChildPc where
  | waitWrite
  | test
  | readSize (tested : UInt32)
  | readBuffer (tested size : UInt32)
  | postRead
  | exited
  deriving DecidableEq

/-- What the child has read in one round: the size it has tested, and the message it has printed. -/
structure ChildRead where
  tested : UInt32
  message : SharedData

/-- The reads of a child that finds the message of the parent. -/
def SharedData.seen (message : SharedData) : ChildRead := ⟨message.messageSize, message⟩

/-- The shared message, the two semaphores, the two processes and the lines still to come. Beside
    them an observer keeps the messages the parent has stored for lines and what the child has
    read. -/
structure Handshake where
  data : SharedData
  writeDone : ℕ
  readDone : ℕ
  parent : ParentPc
  child : ChildPc
  input : List Line
  writes : List SharedData
  reads : List ChildRead

/-- After `fork`, with both semaphores at 0 and `SharedData{}` in the memory. -/
def Handshake.start (lines : List Line) : Handshake :=
  ⟨⟨0, fun _ => 0⟩, 0, 0, .getline, .waitWrite, lines, [], []⟩

/-- The next step of the parent. `wait(nullptr)` returns when the child has exited. -/
def Handshake.parentStep (s : Handshake) : ParentPc → Option Handshake
  | .getline =>
    match s.input with
    | [] => some { s with parent := .writeStop }
    | line :: rest => some { s with parent := .writeSize line, input := rest }
  | .writeSize line =>
    some { s with data := { s.data with messageSize := line.size }, parent := .memset line }
  | .memset line =>
    some { s with data := { s.data with buffer := fun _ => 0 }, parent := .memcpy line }
  | .memcpy line =>
    let data := { s.data with buffer := line.copyTo s.data.buffer }
    some { s with data := data, writes := s.writes ++ [data], parent := .postWrite }
  | .postWrite => some { s with writeDone := s.writeDone + 1, parent := .waitRead }
  | .waitRead =>
    if s.readDone = 0 then none else some { s with readDone := s.readDone - 1, parent := .getline }
  | .writeStop => some { s with data := { s.data with messageSize := 0 }, parent := .postStop }
  | .postStop => some { s with writeDone := s.writeDone + 1, parent := .waitChild }
  | .waitChild => if s.child = .exited then some { s with parent := .exited } else none
  | .exited => none

/-- The next step of the child. -/
def Handshake.childStep (s : Handshake) : ChildPc → Option Handshake
  | .waitWrite =>
    if s.writeDone = 0 then none else some { s with writeDone := s.writeDone - 1, child := .test }
  | .test =>
    if s.data.messageSize = 0 then some { s with child := .exited }
    else some { s with child := .readSize s.data.messageSize }
  | .readSize tested => some { s with child := .readBuffer tested s.data.messageSize }
  | .readBuffer tested size =>
    some { s with reads := s.reads ++ [⟨tested, size, s.data.buffer⟩], child := .postRead }
  | .postRead => some { s with readDone := s.readDone + 1, child := .waitWrite }
  | .exited => none

inductive Process where
  | parent
  | child

def Handshake.step (s : Handshake) : Process → Option Handshake
  | .parent => s.parentStep s.parent
  | .child => s.childStep s.child

/-- The next step of the parent is an access to the shared message. -/
def ParentPc.accessing : ParentPc → Bool
  | .writeSize _ | .memset _ | .memcpy _ | .writeStop => true
  | _ => false

/-- The next step of the child is an access to the shared message. -/
def ChildPc.accessing : ChildPc → Bool
  | .test | .readSize _ | .readBuffer _ _ => true
  | _ => false

/-- **Both processes have exited and the child has read every line.** -/
def Handshake.Delivered (lines : List Line) (s : Handshake) : Prop :=
  s.parent = .exited ∧ s.child = .exited ∧ s.reads = lines.map fun line => line.stored.seen

/-! ## 2. The turns -/

/-- What has been handed over: the parent has stored the lines `sent`, the child has read the lines
    `taken`, none of which looked like the stop signal, and `current` is in the parent's hands. -/
structure Books (lines input : List Line) (writes : List SharedData) (reads : List ChildRead)
    (sent taken current : List Line) : Prop where
  lines : lines = sent ++ current ++ input
  writes : writes = sent.map Line.stored
  reads : reads = taken.map fun line => line.stored.seen
  sizes : ∀ line ∈ taken, line.size ≠ 0

/-- The parent's turn: what it has in its hands, and what of it is stored. -/
def ParentPc.Storing (data : SharedData) (input current : List Line) : ParentPc → Prop
  | .getline => current = []
  | .writeSize line => current = [line]
  | .memset line => current = [line] ∧ data.messageSize = line.size
  | .memcpy line => current = [line] ∧ data = ⟨line.size, fun _ => 0⟩
  | .writeStop => current = [] ∧ input = []
  | .postStop => current = [] ∧ input = [] ∧ data.messageSize = 0
  | _ => False

/-- The child's turn: what it has read of the line, once it has been let in. -/
def ChildPc.Reading (writeDone : ℕ) (line : Line) : ChildPc → Prop
  | .waitWrite => writeDone = 1
  | .test => writeDone = 0
  | .readSize tested => writeDone = 0 ∧ line.size ≠ 0 ∧ tested = line.size
  | .readBuffer tested size =>
    writeDone = 0 ∧ line.size ≠ 0 ∧ tested = line.size ∧ size = line.size
  | _ => False

/-- **The turns of a run.** First the parent stores a line, then the child reads it; the last three
    turns are those of the stop signal. In `refused` the child took a line for it. -/
inductive Phase (lines : List Line) (s : Handshake) : Prop where
  | storing (done current : List Line) (hc : s.child = .waitWrite) (hw : s.writeDone = 0)
      (hr : s.readDone = 0) (b : Books lines s.input s.writes s.reads done done current)
      (hp : s.parent.Storing s.data s.input current)
  | stored (done : List Line) (line : Line) (hp : s.parent = .postWrite)
      (hc : s.child = .waitWrite) (hw : s.writeDone = 0) (hr : s.readDone = 0)
      (b : Books lines s.input s.writes s.reads (done ++ [line]) done [])
      (hd : s.data = line.stored)
  | reading (done : List Line) (line : Line) (hp : s.parent = .waitRead) (hr : s.readDone = 0)
      (b : Books lines s.input s.writes s.reads (done ++ [line]) done [])
      (hd : s.data = line.stored)
      (hc : s.child.Reading s.writeDone line)
  | answering (done : List Line) (hp : s.parent = .waitRead) (hw : s.writeDone = 0)
      (b : Books lines s.input s.writes s.reads done done [])
      (hc : s.child = .postRead ∧ s.readDone = 0 ∨ s.child = .waitWrite ∧ s.readDone = 1)
  | refused (done : List Line) (line : Line) (hp : s.parent = .waitRead) (hc : s.child = .exited)
      (hr : s.readDone = 0) (b : Books lines s.input s.writes s.reads (done ++ [line]) done [])
      (hz : line.size = 0)
  | stopping (hp : s.parent = .waitChild) (hz : s.data.messageSize = 0)
      (b : Books lines [] s.writes s.reads lines lines [])
      (hc : s.child = .waitWrite ∧ s.writeDone = 1 ∨ s.child = .test ∧ s.writeDone = 0)
  | stopped (hp : s.parent = .waitChild ∨ s.parent = .exited) (hc : s.child = .exited)
      (b : Books lines [] s.writes s.reads lines lines [])

section Steps

variable {lines : List Line} {s s' : Handshake}

theorem phase_start (lines : List Line) : Phase lines (.start lines) :=
  .storing [] [] rfl rfl rfl ⟨rfl, rfl, rfl, nofun⟩ rfl

/-- The line the parent has stored joins the lines sent. -/
theorem Books.send {input : List Line} {writes : List SharedData} {reads : List ChildRead}
    {done : List Line} {line : Line} (b : Books lines input writes reads done done [line]) :
    Books lines input (writes ++ [line.stored]) reads (done ++ [line]) done [] where
  lines := by rw [b.lines, List.append_nil]
  writes := by rw [b.writes, List.map_append]; rfl
  reads := b.reads
  sizes := b.sizes

/-- The child has read the line sent last. -/
theorem Books.take {input : List Line} {writes : List SharedData} {reads : List ChildRead}
    {done : List Line} {line : Line} (b : Books lines input writes reads (done ++ [line]) done [])
    (hz : line.size ≠ 0) :
    Books lines input writes (reads ++ [line.stored.seen]) (done ++ [line]) (done ++ [line])
      [] where
  lines := b.lines
  writes := b.writes
  reads := by rw [b.reads, List.map_append]; rfl
  sizes l hl := by
    rcases List.mem_append.mp hl with hl | hl
    · exact b.sizes l hl
    · rw [List.mem_singleton.mp hl]
      exact hz

/-- With no input left and nothing in the parent's hands, every line was sent. -/
theorem Books.all {writes : List SharedData} {reads : List ChildRead} {done : List Line}
    (b : Books lines [] writes reads done done []) : done = lines := by
  rw [b.lines, List.append_nil, List.append_nil]

/-- **A step of the parent leads to the next turn.** -/
theorem Phase.parent_step (h : Phase lines s) (hs : s.parentStep s.parent = some s') :
    Phase lines s' := by
  cases h with
  | storing done current hc hw hr b hp =>
      cases hpc : s.parent <;> rw [hpc] at hp hs
      case getline =>
        obtain rfl : current = [] := hp
        simp only [Handshake.parentStep] at hs
        split at hs <;> obtain rfl := Option.some.inj hs
        next hin => exact .storing done [] hc hw hr b ⟨rfl, hin⟩
        next line rest hin =>
          refine .storing done [line] hc hw hr ⟨?_, b.writes, b.reads, b.sizes⟩ rfl
          rw [b.lines, hin, List.append_nil, List.append_assoc]
          rfl
      case writeSize line =>
        obtain rfl := Option.some.inj hs
        exact .storing done current hc hw hr b ⟨hp, rfl⟩
      case memset line =>
        obtain rfl := Option.some.inj hs
        refine .storing done current hc hw hr b ⟨hp.1, ?_⟩
        rw [← hp.2]
      case memcpy line =>
        obtain rfl := Option.some.inj hs
        obtain ⟨rfl, hd⟩ := hp
        have hstored : ({ s.data with buffer := line.copyTo s.data.buffer } : SharedData) =
            line.stored := by
          rw [hd]
          rfl
        refine .stored done line rfl hc hw hr ?_ hstored
        exact hstored ▸ b.send
      case writeStop =>
        obtain rfl := Option.some.inj hs
        exact .storing done current hc hw hr b ⟨hp.1, hp.2, rfl⟩
      case postStop =>
        obtain rfl := Option.some.inj hs
        obtain ⟨rfl, hin, hz⟩ := hp
        rw [hin] at b
        have hall := b.all
        subst hall
        exact .stopping rfl hz b (.inl ⟨hc, congrArg (· + 1) hw⟩)
      all_goals exact hp.elim
  | stored done line hp hc hw hr b hd =>
      rw [hp] at hs
      obtain rfl := Option.some.inj hs
      refine .reading done line rfl hr b hd ?_
      show s.child.Reading (s.writeDone + 1) line
      rw [hc, hw]
      exact rfl
  | reading done line hp hr b hd hc =>
      simp only [hp, Handshake.parentStep, hr, if_true, reduceCtorEq] at hs
  | answering done hp hw b hc =>
      rcases hc with ⟨hc, hr⟩ | ⟨hc, hr⟩
      · simp only [hp, Handshake.parentStep, hr, if_true, reduceCtorEq] at hs
      · simp only [hp, Handshake.parentStep, hr, Nat.one_ne_zero, if_false, Option.some.injEq] at hs
        subst hs
        exact .storing done [] hc hw rfl b rfl
  | refused done line hp hc hr b hz =>
      simp only [hp, Handshake.parentStep, hr, if_true, reduceCtorEq] at hs
  | stopping hp hz b hc =>
      have hrun : s.child ≠ .exited := by rcases hc with ⟨hc, -⟩ | ⟨hc, -⟩ <;> rw [hc] <;> nofun
      simp only [hp, Handshake.parentStep, if_neg hrun, reduceCtorEq] at hs
  | stopped hp hc b =>
      rcases hp with hp | hp
      · rw [hp, Handshake.parentStep, if_pos hc] at hs
        obtain rfl := Option.some.inj hs
        exact .stopped (.inr rfl) hc b
      · simp only [hp, Handshake.parentStep, reduceCtorEq] at hs

/-- **A step of the child leads to the next turn.** -/
theorem Phase.child_step (h : Phase lines s) (hs : s.childStep s.child = some s') :
    Phase lines s' := by
  cases h with
  | storing done current hc hw hr b hp =>
      simp only [hc, Handshake.childStep, hw, if_true, reduceCtorEq] at hs
  | stored done line hp hc hw hr b hd =>
      simp only [hc, Handshake.childStep, hw, if_true, reduceCtorEq] at hs
  | reading done line hp hr b hd hc =>
      have hsize : s.data.messageSize = line.size := by rw [hd]; rfl
      cases hpc : s.child <;> rw [hpc] at hc hs
      case waitWrite =>
        have hw : s.writeDone = 1 := hc
        simp only [Handshake.childStep, hw, Nat.one_ne_zero, if_false, Option.some.injEq] at hs
        subst hs
        exact .reading done line hp hr b hd rfl
      case test =>
        simp only [Handshake.childStep, hsize] at hs
        split at hs <;> obtain rfl := Option.some.inj hs
        next hz => exact .refused done line hp rfl hr b hz
        next hz => exact .reading done line hp hr b hd ⟨hc, hz, rfl⟩
      case readSize tested =>
        obtain rfl := Option.some.inj hs
        exact .reading done line hp hr b hd ⟨hc.1, hc.2.1, hc.2.2, hsize⟩
      case readBuffer tested size =>
        obtain rfl := Option.some.inj hs
        obtain ⟨hw, hz, rfl, rfl⟩ := hc
        refine .answering (done ++ [line]) hp hw ?_ (.inl ⟨rfl, hr⟩)
        show Books lines s.input s.writes (s.reads ++ [⟨line.size, line.size, s.data.buffer⟩]) _ _ _
        rw [hd]
        exact b.take hz
      all_goals exact hc.elim
  | answering done hp hw b hc =>
      rcases hc with ⟨hc, hr⟩ | ⟨hc, hr⟩
      · rw [hc] at hs
        obtain rfl := Option.some.inj hs
        exact .answering done hp hw b (.inr ⟨rfl, congrArg (· + 1) hr⟩)
      · simp only [hc, Handshake.childStep, hw, if_true, reduceCtorEq] at hs
  | refused done line hp hc hr b hz => simp only [hc, Handshake.childStep, reduceCtorEq] at hs
  | stopping hp hz b hc =>
      rcases hc with ⟨hc, hw⟩ | ⟨hc, hw⟩
      · simp only [hc, Handshake.childStep, hw, Nat.one_ne_zero, if_false, Option.some.injEq] at hs
        subst hs
        exact .stopping hp hz b (.inr ⟨rfl, rfl⟩)
      · simp only [hc, Handshake.childStep, hz, if_true, Option.some.injEq] at hs
        subst hs
        exact .stopped (.inl hp) rfl b
  | stopped hp hc b => simp only [hc, Handshake.childStep, reduceCtorEq] at hs

theorem Phase.step (h : Phase lines s) {a : Process} (hs : s.step a = some s') :
    Phase lines s' := by
  cases a with
  | parent => exact h.parent_step hs
  | child => exact h.child_step hs

theorem phase_reach (h : Reach Handshake.step (.start lines) s) : Phase lines s :=
  h.invariant (phase_start lines) fun _ _ _ hi _ hs => hi.step hs

end Steps

/-! ## 3. Exclusive access -/

section Exclusive

variable {lines : List Line} {s : Handshake}

theorem Phase.exclusive (h : Phase lines s) :
    s.parent.accessing = false ∨ s.child.accessing = false := by
  cases h with
  | storing _ _ hc => rw [hc]; exact .inr rfl
  | stored _ _ hp => rw [hp]; exact .inl rfl
  | reading _ _ hp => rw [hp]; exact .inl rfl
  | answering _ hp => rw [hp]; exact .inl rfl
  | refused _ _ hp => rw [hp]; exact .inl rfl
  | stopping hp => rw [hp]; exact .inl rfl
  | stopped hp hc => rw [hc]; exact .inr rfl

theorem Books.ordered {input : List Line} {writes : List SharedData} {reads : List ChildRead}
    {sent taken current : List Line} (b : Books lines input writes reads sent taken current)
    (ht : taken <+: sent) :
    reads <+: writes.map SharedData.seen ∧ writes <+: lines.map Line.stored := by
  rw [b.reads, b.writes, b.lines, List.map_map, List.append_assoc]
  exact ⟨ht.map _, (List.prefix_append _ _).map _⟩

theorem Phase.ordered (h : Phase lines s) :
    s.reads <+: s.writes.map SharedData.seen ∧ s.writes <+: lines.map Line.stored := by
  cases h with
  | storing _ _ _ _ _ b => exact b.ordered List.prefix_rfl
  | stored _ _ _ _ _ _ b => exact b.ordered (List.prefix_append _ _)
  | reading _ _ _ _ b => exact b.ordered (List.prefix_append _ _)
  | answering _ _ _ b => exact b.ordered List.prefix_rfl
  | refused _ _ _ _ _ b => exact b.ordered (List.prefix_append _ _)
  | stopping _ _ b => exact b.ordered List.prefix_rfl
  | stopped _ _ b => exact b.ordered List.prefix_rfl

end Exclusive

/-- **The processes never access the shared message at the same time, and the child reads what the
    parent has stored**, message by message, with none repeated or skipped, for every input. -/
theorem handshake_exclusive (lines : List Line) {s : Handshake}
    (h : Reach Handshake.step (.start lines) s) :
    ¬ (s.parent.accessing = true ∧ s.child.accessing = true) ∧
      s.reads <+: s.writes.map SharedData.seen ∧ s.writes <+: lines.map Line.stored := by
  have hphase := phase_reach h
  refine ⟨fun ⟨hp, hc⟩ => ?_, hphase.ordered⟩
  rcases hphase.exclusive with he | he
  · rw [hp] at he
    cases he
  · rw [hc] at he
    cases he

/-- The parent stores a line and the child reads it, twice; the second answer is still to come. -/
def twoRounds : List Process :=
  List.replicate 5 .parent ++ List.replicate 5 .child ++ List.replicate 6 .parent ++
    List.replicate 4 .child

/-- `hi` and `y`: the second line is read without a byte of the first one behind it. -/
theorem handshake_exclusive_twoRounds :
    ∃ s, Reach Handshake.step (.start [[104, 105], [121]]) s ∧
      s.reads.map (fun r => (r.tested, r.message.messageSize)) = [(2, 2), (1, 1)] ∧
      s.reads.map (fun r => [r.message.buffer 0, r.message.buffer 1, r.message.buffer 2]) =
        [[104, 105, 0], [121, 0, 0]] ∧
      ¬ (s.parent.accessing = true ∧ s.child.accessing = true) ∧
      s.reads <+: s.writes.map SharedData.seen ∧
      s.writes <+: [[104, 105], [121]].map Line.stored := by
  obtain ⟨s, hs, hp⟩ := reach_of_run Handshake.step (fun _ _ => true)
    (.start [[104, 105], [121]]) twoRounds (fun s => decide (
      s.reads.map (fun r => (r.tested, r.message.messageSize)) = [(2, 2), (1, 1)] ∧
      s.reads.map (fun r => [r.message.buffer 0, r.message.buffer 1, r.message.buffer 2]) =
        [[104, 105, 0], [121, 0, 0]])) (by decide +kernel)
  obtain ⟨hsizes, hbytes⟩ := of_decide_eq_true hp
  exact ⟨s, hs.reach, hsizes, hbytes, handshake_exclusive _ hs.reach⟩

/-! ## 4. Delivery -/

/-- The steps the parent may still cause, apart from those of lines to come. -/
def ParentPc.left : ParentPc → ℕ
  | .writeSize _ => 19
  | .memset _ => 18
  | .memcpy _ => 17
  | .postWrite => 16
  | .waitRead => 10
  | .getline => 9
  | .writeStop => 8
  | .postStop => 7
  | .waitChild => 1
  | .exited => 0

def ChildPc.left : ChildPc → ℕ
  | .test => 4
  | .readSize _ => 3
  | .readBuffer _ _ => 2
  | .postRead => 1
  | .waitWrite | .exited => 0

/-- **What is left of a run**, whatever the schedule: a round takes six steps of the parent and five
    of the child. -/
def Handshake.left (s : Handshake) : ℕ :=
  11 * s.input.length + s.parent.left + 5 * s.writeDone + s.child.left

section Delivery

variable {lines : List Line} {s s' : Handshake}

theorem left_parent {pc : ParentPc} (hpc : s.parent = pc) (hs : s.parentStep pc = some s') :
    s'.left < s.left := by
  unfold Handshake.left
  rw [hpc]
  cases pc with
  | getline =>
      simp only [Handshake.parentStep] at hs
      split at hs <;> obtain rfl := Option.some.inj hs
      next hin => simp [hin, ParentPc.left]
      next hin => simp only [hin, ParentPc.left, List.length_cons]; omega
  | waitRead =>
      simp only [Handshake.parentStep] at hs
      split at hs
      · cases hs
      · obtain rfl := Option.some.inj hs
        simp [ParentPc.left]
  | waitChild =>
      simp only [Handshake.parentStep] at hs
      split at hs
      · obtain rfl := Option.some.inj hs
        simp [ParentPc.left]
      · cases hs
  | exited => cases hs
  | _ =>
      obtain rfl := Option.some.inj hs
      simp only [ParentPc.left]
      omega

theorem left_child {pc : ChildPc} (hpc : s.child = pc) (hs : s.childStep pc = some s') :
    s'.left < s.left := by
  unfold Handshake.left
  rw [hpc]
  cases pc with
  | waitWrite =>
      simp only [Handshake.childStep] at hs
      split at hs
      · cases hs
      · obtain rfl := Option.some.inj hs
        simp only [ChildPc.left]
        omega
  | test =>
      simp only [Handshake.childStep] at hs
      split at hs <;> obtain rfl := Option.some.inj hs <;> simp [ChildPc.left]
  | exited => cases hs
  | _ =>
      obtain rfl := Option.some.inj hs
      simp [ChildPc.left]

theorem left_step {a : Process} (hs : s.step a = some s') : s'.left < s.left := by
  cases a with
  | parent => exact left_parent rfl hs
  | child => exact left_child rfl hs

/-- **Where no step is possible** both processes have exited and every line was delivered, or the
    child took a line for the stop signal. -/
theorem Phase.at_end (h : Phase lines s) (hstuck : Stuck Handshake.step s) :
    (s.Delivered lines ∧ ∀ line ∈ lines, line.size ≠ 0) ∨
      ∃ line ∈ lines, line.size = 0 ∧ s.parent = .waitRead ∧ s.child = .exited := by
  have hparent : s.parentStep s.parent = none := hstuck .parent
  have hchild : s.childStep s.child = none := hstuck .child
  cases h with
  | storing done current hc hw hr b hp =>
      cases hpc : s.parent <;> rw [hpc] at hp hparent
      case getline =>
        cases hin : s.input <;> simp only [Handshake.parentStep, hin, reduceCtorEq] at hparent
      all_goals first | exact hp.elim | cases hparent
  | stored done line hp => rw [hp] at hparent; cases hparent
  | reading done line hp hr b hd hc =>
      cases hpc : s.child <;> rw [hpc] at hc hchild
      case waitWrite =>
        have hw : s.writeDone = 1 := hc
        simp only [Handshake.childStep, hw, Nat.one_ne_zero, if_false, reduceCtorEq] at hchild
      case test =>
        simp only [Handshake.childStep] at hchild
        split at hchild <;> cases hchild
      all_goals first | exact hc.elim | cases hchild
  | answering done hp hw b hc =>
      rcases hc with ⟨hc, hr⟩ | ⟨hc, hr⟩
      · rw [hc] at hchild
        cases hchild
      · simp only [hp, Handshake.parentStep, hr, Nat.one_ne_zero, if_false, reduceCtorEq] at hparent
  | refused done line hp hc hr b hz =>
      refine .inr ⟨line, ?_, hz, hp, hc⟩
      rw [b.lines]
      simp
  | stopping hp hz b hc =>
      rcases hc with ⟨hc, hw⟩ | ⟨hc, hw⟩
      · simp only [hc, Handshake.childStep, hw, Nat.one_ne_zero, if_false, reduceCtorEq] at hchild
      · simp only [hc, Handshake.childStep, hz, if_true, reduceCtorEq] at hchild
  | stopped hp hc b =>
      rcases hp with hp | hp
      · simp only [hp, Handshake.parentStep, hc, if_true, reduceCtorEq] at hparent
      · exact .inl ⟨⟨hp, hc, b.reads⟩, b.sizes⟩

end Delivery

/-- **Every maximal run delivers every line exactly when no line has the size of the stop signal**,
    0 as a 32-bit word. -/
theorem handshake_delivers_iff (lines : List Line) :
    Halts Handshake.step (.start lines) (Handshake.Delivered lines) ↔
      ∀ line ∈ lines, line.size ≠ 0 := by
  constructor
  · intro h
    obtain ⟨s, hs, hstuck, hdone⟩ := h.exists_end
    rcases (phase_reach hs).at_end hstuck with ⟨-, hsizes⟩ | ⟨line, -, -, hp, -⟩
    · exact hsizes
    · rw [hdone.1] at hp
      cases hp
  · intro hsizes
    refine halts_of_measure (I := Phase lines) Handshake.left
      (fun _ _ _ hphase hs => ⟨hphase.step hs, left_step hs⟩) (phase_start lines)
      fun s hphase hstuck => ?_
    rcases hphase.at_end hstuck with ⟨hdone, -⟩ | ⟨line, hline, hz, -, -⟩
    · exact hdone
    · exact absurd hz (hsizes line hline)

/-- **One empty line and the processes are stuck**: the child has taken it for the stop signal and
    exited, the parent waits for its answer. -/
theorem handshake_empty_line_deadlocks :
    ∃ s, Reach Handshake.step (.start [[]]) s ∧ Stuck Handshake.step s ∧
      s.parent = .waitRead ∧ s.child = .exited ∧ s.reads = [] := by
  obtain ⟨s, hs, hp⟩ := reach_of_run Handshake.step (fun _ _ => true) (.start [[]])
    (List.replicate 5 .parent ++ List.replicate 2 .child)
    (fun s => (s.step .parent).isNone && (s.step .child).isNone && s.reads.isEmpty)
    (by decide +kernel)
  simp only [Bool.and_eq_true, Option.isNone_iff_eq_none, List.isEmpty_iff] at hp
  obtain ⟨⟨hparent, hchild⟩, hreads⟩ := hp
  have hstuck : Stuck Handshake.step s := fun a => by
    cases a with
    | parent => exact hparent
    | child => exact hchild
  rcases (phase_reach hs.reach).at_end hstuck with ⟨hdone, -⟩ | ⟨line, -, -, hp, hc⟩
  · rw [hdone.2.2] at hreads
    cases hreads
  · exact ⟨s, hs.reach, hstuck, hp, hc, hreads⟩

end HseMultithreading.Ipc
