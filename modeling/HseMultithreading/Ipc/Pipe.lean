/-
  File:      HseMultithreading/Ipc/Pipe.lean
  Subject:   The parent and the child of `ipc/pipe_intro.cpp` and `ipc/mkfifo_intro.cpp`, which pass
             lines through a pipe. The loops of the two programs are the same; a fifo is a pipe with
             a name.

  The pipe is a stream of bytes: where a line ends does not show in it. A `write` copies its bytes
  as the pipe has room for them, and a `read` takes what is there, up to the size of its buffer.

  * `Pipe`, `Pipe.step` -- the two processes, once each has only its own end open: a chunk copied by
    a `write` that is in progress, and every `read`, are steps.
  * `Flow` -- the bytes read, in the pipe, in the hands of the `write` and still to come are the
    bytes of the lines, in order.
  * **`pipe_delivers`** -- for a pipe with room for a byte every maximal run ends, with both
    processes exited and all bytes read.
-/
import HseMultithreading.Ipc.Handshake

namespace HseMultithreading.Ipc

open StepSystem

/-! ## 1. The machine -/

/-- `sizeof(buf)`. -/
abbrev pipeBufferSize : ℕ := 1024

/-- What the parent does NEXT. At `write rest` the call has yet to copy `rest` into the pipe. -/
inductive WriterPc where
  | getline
  | write (rest : Line)
  | close
  | waitChild
  | exited

/-- What the child does NEXT. -/
inductive ReaderPc where
  | read
  | exited
  deriving DecidableEq

/-- One `read`: the bytes it has returned, and `buf` after it. -/
structure PipeRead where
  bytes : Line
  buf : Fin pipeBufferSize → UInt8

/-- The bytes in the pipe, the two processes and the lines still to come. Beside them an observer
    keeps what the child has read. -/
structure Pipe where
  stream : Line
  parent : WriterPc
  child : ReaderPc
  input : List Line
  reads : List PipeRead

def Pipe.start (lines : List Line) : Pipe := ⟨[], .getline, .read, lines, []⟩

/-- The parent's end of the pipe is closed. -/
def WriterPc.closed : WriterPc → Bool
  | .waitChild | .exited => true
  | _ => false

/-- `copy k` is a chunk of `k` bytes that a `write` copies, `read k` a `read` that returns `k` bytes
    and `endOfFile` one that returns 0; `parent` is any other step of the parent. -/
inductive PipeAction where
  | parent
  | copy (k : ℕ)
  | read (k : ℕ)
  | endOfFile

/-- The steps of the parent apart from the copying. -/
def Pipe.parentStep (s : Pipe) : WriterPc → Option Pipe
  | .getline =>
    match s.input with
    | [] => some { s with parent := .close }
    | line :: rest => some { s with parent := .write line, input := rest }
  | .write [] => some { s with parent := .getline }
  | .write (_ :: _) => none
  | .close => some { s with parent := .waitChild }
  | .waitChild => if s.child = .exited then some { s with parent := .exited } else none
  | .exited => none

/-- A `write` waits while the pipe is full, a `read` while it is empty and the other end open. `buf`
    is zero before every `read`. -/
def Pipe.step (capacity : ℕ) (s : Pipe) : PipeAction → Option Pipe
  | .parent => s.parentStep s.parent
  | .copy k =>
    match s.parent with
    | .write rest =>
      if 0 < k ∧ k ≤ rest.length ∧ s.stream.length + k ≤ capacity then
        some { s with stream := s.stream ++ rest.take k, parent := .write (rest.drop k) }
      else none
    | _ => none
  | .read k =>
    if s.child = .read ∧ 0 < k ∧ k ≤ s.stream.length ∧ k ≤ pipeBufferSize then
      some { s with
        stream := s.stream.drop k
        reads := s.reads ++ [⟨s.stream.take k, Line.copyTo (s.stream.take k) fun _ => 0⟩] }
    else none
  | .endOfFile =>
    if s.child = .read ∧ s.stream = [] ∧ s.parent.closed = true then
      some { s with child := .exited }
    else none

/-- **Both processes have exited and the child has read every byte.** -/
def Pipe.Delivered (lines : List Line) (s : Pipe) : Prop :=
  s.parent = .exited ∧ s.child = .exited ∧ s.reads.flatMap PipeRead.bytes = lines.flatten

/-! ## 2. The flow of bytes -/

/-- What the `write` in progress has still to copy. -/
def WriterPc.rest : WriterPc → Line
  | .write rest => rest
  | _ => []

/-- **The invariant of the two processes.** -/
structure Flow (lines : List Line) (s : Pipe) : Prop where
  bytes : s.reads.flatMap PipeRead.bytes ++ s.stream ++ s.parent.rest ++ s.input.flatten =
    lines.flatten
  reads : ∀ r ∈ s.reads, r.bytes ≠ [] ∧ r.bytes.length ≤ pipeBufferSize ∧
    r.buf = r.bytes.copyTo fun _ => 0
  closing : s.parent = .close ∨ s.parent.closed = true → s.input = []
  childExited : s.child = .exited → s.stream = [] ∧ s.parent.closed = true
  parentExited : s.parent = .exited → s.child = .exited

theorem flow_start (lines : List Line) : Flow lines (.start lines) where
  bytes := rfl
  reads _ h := absurd h List.not_mem_nil
  closing h := by rcases h with h | h <;> cases h
  childExited h := nomatch h
  parentExited h := nomatch h

section Steps

variable {lines : List Line} {capacity : ℕ} {s s' : Pipe}

theorem Flow.parent_step (h : Flow lines s) {pc : WriterPc} (hpc : s.parent = pc)
    (hs : s.parentStep pc = some s') : Flow lines s' := by
  have hbytes := h.bytes
  have hopen : pc.closed = false → s.child ≠ .exited := fun hno he => by
    rw [← hpc, (h.childExited he).2] at hno
    cases hno
  rw [hpc] at hbytes
  cases pc with
  | getline =>
      have hlive := hopen rfl
      simp only [Pipe.parentStep] at hs
      split at hs <;> obtain rfl := Option.some.inj hs
      next hin => exact ⟨hbytes, h.reads, fun _ => hin, fun he => absurd he hlive, nofun⟩
      next line rest hin =>
        refine ⟨?_, h.reads, fun hc => ?_, fun he => absurd he hlive, nofun⟩
        · rw [hin, List.flatten_cons, ← List.append_assoc] at hbytes
          simpa [WriterPc.rest] using hbytes
        · rcases hc with hc | hc <;> cases hc
  | write rest =>
      cases rest with
      | nil =>
          obtain rfl := Option.some.inj hs
          refine ⟨hbytes, h.reads, fun hc => ?_, fun he => absurd he (hopen rfl), nofun⟩
          rcases hc with hc | hc <;> cases hc
      | cons b bs => cases hs
  | close =>
      obtain rfl := Option.some.inj hs
      exact ⟨hbytes, h.reads, fun _ => h.closing (.inl hpc), fun he => absurd he (hopen rfl), nofun⟩
  | waitChild =>
      simp only [Pipe.parentStep] at hs
      split at hs
      next he =>
        obtain rfl := Option.some.inj hs
        exact ⟨hbytes, h.reads, fun _ => h.closing (.inr (by rw [hpc]; rfl)),
          fun _ => ⟨(h.childExited he).1, rfl⟩, fun _ => he⟩
      next => cases hs
  | exited => cases hs

theorem Flow.step (h : Flow lines s) {a : PipeAction} (hs : s.step capacity a = some s') :
    Flow lines s' := by
  cases a with
  | parent => exact h.parent_step rfl hs
  | copy k =>
      simp only [Pipe.step] at hs
      split at hs
      next rest hpc =>
        split at hs
        · obtain rfl := Option.some.inj hs
          have hlive : s.child ≠ .exited := fun he => by
            have hclosed := (h.childExited he).2
            rw [hpc] at hclosed
            cases hclosed
          refine ⟨?_, h.reads, fun hc => ?_, fun he => absurd he hlive, nofun⟩
          · have hbytes := h.bytes
            rw [hpc] at hbytes
            show s.reads.flatMap PipeRead.bytes ++ (s.stream ++ rest.take k) ++ rest.drop k ++ _ = _
            rw [← List.append_assoc, List.append_assoc _ (rest.take k), List.take_append_drop]
            exact hbytes
          · rcases hc with hc | hc <;> cases hc
        · cases hs
      next => cases hs
  | read k =>
      simp only [Pipe.step] at hs
      split at hs
      next hk =>
        obtain rfl := Option.some.inj hs
        obtain ⟨hread, hpos, hle, hbuf⟩ := hk
        have hlen : (s.stream.take k).length = k := List.length_take_of_le hle
        refine ⟨?_, fun r hr => ?_, h.closing, fun he => ?_, h.parentExited⟩
        · rw [← h.bytes, List.flatMap_append]
          show _ ++ ([_].flatMap PipeRead.bytes) ++ s.stream.drop k ++ _ ++ _ = _
          rw [List.flatMap_singleton, List.append_assoc _ (s.stream.take k), List.take_append_drop]
        · rcases List.mem_append.mp hr with hr | hr
          · exact h.reads r hr
          · rw [List.mem_singleton.mp hr]
            refine ⟨fun e => ?_, ?_, rfl⟩
            · rw [show s.stream.take k = [] from e] at hlen
              exact absurd hlen.symm (Nat.ne_of_gt hpos)
            · show (s.stream.take k).length ≤ pipeBufferSize
              rw [hlen]
              exact hbuf
        · rw [show s.child = .exited from he] at hread
          cases hread
      next => cases hs
  | endOfFile =>
      simp only [Pipe.step] at hs
      split at hs
      next hend =>
        obtain rfl := Option.some.inj hs
        exact ⟨h.bytes, h.reads, h.closing, fun _ => hend.2, fun _ => rfl⟩
      next => cases hs

end Steps

/-- The invariant holds in every reachable state. -/
theorem flow_reach {lines : List Line} {capacity : ℕ} {s : Pipe}
    (h : Reach (Pipe.step capacity) (.start lines) s) : Flow lines s :=
  h.invariant (flow_start lines) fun _ _ _ hI _ hs => hI.step hs

/-! ## 3. Every run delivers -/

def WriterPc.left : WriterPc → ℕ
  | .write _ => 4
  | .getline => 3
  | .close => 2
  | .waitChild => 1
  | .exited => 0

def ReaderPc.left : ReaderPc → ℕ
  | .read => 1
  | .exited => 0

/-- **What is left of a run**: a byte is copied and read, a line is taken up and done with. -/
def Pipe.left (s : Pipe) : ℕ :=
  2 * (s.parent.rest.length + s.input.flatten.length) + s.stream.length + 2 * s.input.length +
    s.parent.left + s.child.left

section Runs

variable {lines : List Line} {capacity : ℕ} {s s' : Pipe}

theorem pipe_left_parent {pc : WriterPc} (hpc : s.parent = pc) (hs : s.parentStep pc = some s') :
    s'.left < s.left := by
  unfold Pipe.left
  rw [hpc]
  cases pc with
  | getline =>
      simp only [Pipe.parentStep] at hs
      split at hs <;> obtain rfl := Option.some.inj hs
      next hin => simp [hin, WriterPc.left, WriterPc.rest]
      next hin =>
        simp only [hin, WriterPc.left, WriterPc.rest, List.flatten_cons, List.length_append,
          List.length_cons, List.length_nil]
        omega
  | write rest =>
      cases rest with
      | nil => obtain rfl := Option.some.inj hs; simp [WriterPc.left, WriterPc.rest]
      | cons b bs => cases hs
  | close => obtain rfl := Option.some.inj hs; simp [WriterPc.left, WriterPc.rest]
  | waitChild =>
      simp only [Pipe.parentStep] at hs
      split at hs
      · obtain rfl := Option.some.inj hs
        simp [WriterPc.left, WriterPc.rest]
      · cases hs
  | exited => cases hs

theorem pipe_left_step {a : PipeAction} (hs : s.step capacity a = some s') : s'.left < s.left := by
  cases a with
  | parent => exact pipe_left_parent rfl hs
  | copy k =>
      simp only [Pipe.step] at hs
      split at hs
      next rest hpc =>
        split at hs
        next hk =>
          obtain rfl := Option.some.inj hs
          simp only [Pipe.left, hpc, WriterPc.rest, WriterPc.left, List.length_append,
            List.length_take, List.length_drop]
          omega
        next => cases hs
      next => cases hs
  | read k =>
      simp only [Pipe.step] at hs
      split at hs
      next hk =>
        obtain rfl := Option.some.inj hs
        simp only [Pipe.left, List.length_drop]
        omega
      next => cases hs
  | endOfFile =>
      simp only [Pipe.step] at hs
      split at hs
      next hend =>
        obtain rfl := Option.some.inj hs
        simp [Pipe.left, hend.1, ReaderPc.left]
      next => cases hs

/-- A child that waits for bytes finds some, or the end of the file. -/
theorem reader_not_stuck (hstuck : Stuck (Pipe.step capacity) s) (hread : s.child = .read) :
    s.stream = [] ∧ s.parent.closed = false := by
  have hempty : s.stream = [] := by
    refine Classical.byContradiction fun hne => ?_
    have hlen := List.length_pos_iff.mpr hne
    have hnone := hstuck (.read 1)
    rw [Pipe.step, if_pos ⟨hread, Nat.one_pos, hlen, by decide⟩] at hnone
    cases hnone
  refine ⟨hempty, Bool.eq_false_iff.mpr fun hclosed => ?_⟩
  have hnone := hstuck .endOfFile
  rw [Pipe.step, if_pos ⟨hread, hempty, hclosed⟩] at hnone
  cases hnone

/-- **Where no step is possible** all bytes have been read. -/
theorem Flow.at_end (h : Flow lines s) (hcap : 0 < capacity)
    (hstuck : Stuck (Pipe.step capacity) s) : s.Delivered lines := by
  have hparent : s.parentStep s.parent = none := hstuck .parent
  cases hpc : s.parent <;> rw [hpc] at hparent
  case getline =>
    cases hin : s.input <;> simp only [Pipe.parentStep, hin, reduceCtorEq] at hparent
  case write rest =>
    -- the pipe is empty, so there is room for a byte
    cases rest with
    | nil => cases hparent
    | cons b bs =>
        have hread : s.child = .read := by
          cases hc : s.child with
          | read => rfl
          | exited =>
              have hclosed := (h.childExited hc).2
              rw [hpc] at hclosed
              cases hclosed
        have hnone := hstuck (.copy 1)
        have hroom : 0 < 1 ∧ 1 ≤ (b :: bs).length ∧ s.stream.length + 1 ≤ capacity := by
          rw [(reader_not_stuck hstuck hread).1]
          exact ⟨Nat.one_pos, Nat.le_add_left 1 _, hcap⟩
        simp only [Pipe.step, hpc, if_pos hroom, reduceCtorEq] at hnone
  case close => cases hparent
  case waitChild =>
    cases hc : s.child with
    | read =>
        have hopen := (reader_not_stuck hstuck hc).2
        rw [hpc] at hopen
        cases hopen
    | exited => simp only [Pipe.parentStep, hc, if_true, reduceCtorEq] at hparent
  case exited =>
    have hc := h.parentExited hpc
    have hbytes := h.bytes
    have hin := h.closing (.inr (by rw [hpc]; rfl))
    rw [(h.childExited hc).1, hpc, hin] at hbytes
    refine ⟨hpc, hc, ?_⟩
    simpa [WriterPc.rest] using hbytes

end Runs

/-- **Every maximal run delivers every byte of every line, in order.** -/
theorem pipe_delivers (lines : List Line) {capacity : ℕ} (hcap : 0 < capacity) :
    Halts (Pipe.step capacity) (.start lines) (Pipe.Delivered lines) :=
  halts_of_measure (I := Flow lines) Pipe.left
    (fun _ _ _ hI hs => ⟨hI.step hs, pipe_left_step hs⟩) (flow_start lines)
    fun _ hI hstuck => hI.at_end hcap hstuck

end HseMultithreading.Ipc
