/-
  File:      HseMultithreading/Ipc/Receiver.lean
  Subject:   WHAT THE RECEIVER PRINTS in `ipc/shm_intro.cpp`, `ipc/mmap_intro.cpp`,
             `ipc/mqueue.cpp`, `ipc/pipe_intro.cpp` and `ipc/mkfifo_intro.cpp`: a `char` array as
             a C string.

  All of them fill an array that was zero before, and cut what does not fit. So there is a
  terminator behind the data exactly when the data leaves a byte of the array free.

  * `Faithful array data` -- the scan for the terminator stops within the array, and data without a
    zero byte is what it finds.
  * `faithful_iff` -- for an array filled by `Line.copyTo`.
  * **`receiver_faithful_iff`** -- for every message that one of the programs prints, in every run;
    and when the announced size is the number of bytes stored.
  * `receiver_overruns` -- a line of 4092 bytes, one of 1024 bytes through a message queue or a
    pipe, and a line of 4093 bytes whose size is announced as 4093.
-/
import Mathlib.Algebra.Group.Nat.Defs
import HseMultithreading.Lib.CString
import HseMultithreading.Ipc.Mqueue
import HseMultithreading.Ipc.Pipe

namespace HseMultithreading.Ipc

open StepSystem CString

/-! ## 1. An array filled with a line -/

/-- **Formatting the array as a C string** stops within the array and, when there is no zero byte in
    the data, yields exactly the data. -/
def Faithful {n : ℕ} (array : Fin n → UInt8) (data : Line) : Prop :=
  ∃ found, scan 0 (List.ofFn array) = some found ∧ (0 ∉ data → found = data)

/-- The array holds the part of the line that fits, and zero bytes behind it. -/
theorem ofFn_copyTo (n : ℕ) (line : Line) :
    List.ofFn (line.copyTo fun _ : Fin n => 0) =
      line.take n ++ List.replicate (n - line.length) 0 := by
  refine List.ext_getElem (by simp; omega) fun i hi _ => ?_
  rw [List.length_ofFn] at hi
  rw [List.getElem_ofFn, Line.copyTo_zero, List.getD_eq_getElem?_getD, List.getElem_append]
  simp only [List.length_take, List.getElem_take, List.getElem_replicate]
  by_cases hin : i < line.length
  · have hmin : i < min n line.length := by omega
    rw [dif_pos hmin, List.getElem?_eq_getElem hin, Option.getD_some]
  · have hmin : ¬ i < min n line.length := by omega
    rw [dif_neg hmin, List.getElem?_eq_none (Nat.le_of_not_lt hin), Option.getD_none]

theorem faithful_iff (n : ℕ) (line : Line) :
    Faithful (line.copyTo fun _ : Fin n => 0) (line.take n) ↔
      line.length < n ∨ 0 ∈ line.take n := by
  unfold Faithful
  rw [ofFn_copyTo]
  refine ⟨fun ⟨found, hscan, _⟩ => ?_, fun h => ⟨text 0 (line.take n), ?_, text_of_notMem⟩⟩
  · refine Classical.byContradiction fun hno => ?_
    obtain ⟨hlong, hnul⟩ := not_or.mp hno
    have hfull : n - line.length = 0 := Nat.sub_eq_zero_of_le (Nat.le_of_not_lt hlong)
    rw [hfull, List.replicate_zero, List.append_nil, scan_of_notMem hnul] at hscan
    cases hscan
  · rw [scan_append_iff, List.head?_replicate]
    refine h.symm.imp_right fun hshort => ?_
    rw [if_neg (Nat.sub_ne_zero_of_lt hshort)]

/-- The size word tells the number of bytes stored, unless the line was cut and its size is not that
    of the buffer as a 32-bit word. -/
theorem announced_iff (line : Line) :
    line.size.toNat = (line.take bufferSize).length ↔
      line.length ≤ bufferSize ∨ line.length % 2 ^ 32 = bufferSize := by
  have hsize : line.size.toNat = line.length % 2 ^ 32 := UInt32.toNat_ofNat'
  rw [hsize, List.length_take]
  by_cases h : line.length ≤ bufferSize
  · have hmod : line.length % 2 ^ 32 = line.length :=
      Nat.mod_eq_of_lt (Nat.lt_of_le_of_lt h (by decide))
    rw [hmod, Nat.min_eq_right h]
    exact iff_of_true rfl (.inl h)
  · rw [Nat.min_eq_left (Nat.le_of_not_le h), or_iff_right h]

/-! ## 2. The programs -/

section Programs

variable {lines : List Line}

theorem getElem?_of_isPrefix {α : Type*} {l l' : List α} {i : ℕ} {x : α} (h : l <+: l')
    (hx : l[i]? = some x) : l'[i]? = some x := by
  obtain ⟨rest, rfl⟩ := h
  rw [List.getElem?_append_left (List.getElem?_eq_some_iff.mp hx).1]
  exact hx

/-- What the child of the handshake has read is what was stored for the line of that number. -/
theorem read_of_line {s : Handshake} (h : Reach Handshake.step (.start lines) s) {i : ℕ}
    {read : ChildRead} (hi : s.reads[i]? = some read) :
    ∃ line, lines[i]? = some line ∧ read = line.stored.seen := by
  obtain ⟨hreads, hwrites⟩ := (phase_reach h).ordered
  have hread := getElem?_of_isPrefix (hreads.trans (hwrites.map _)) hi
  rw [List.map_map, List.getElem?_map] at hread
  obtain ⟨line, hline, rfl⟩ := Option.map_eq_some_iff.mp hread
  exact ⟨line, hline, rfl⟩

/-- What the child of the message queue has received, the stop message apart, was sent for the line
    of that number. -/
theorem message_of_line {s : Mqueue} (h : Reach Mqueue.step (.start lines) s) {i : ℕ}
    {message : Message} (hi : s.received[i]? = some message)
    (hdefault : message.messageType = .default) :
    ∃ line, lines[i]? = some line ∧ message = .ofLine line := by
  have hmessage := getElem?_of_isPrefix (received_reach h) hi
  rw [Message.all, List.getElem?_append, List.length_map] at hmessage
  split at hmessage
  · rw [List.getElem?_map] at hmessage
    obtain ⟨line, hline, rfl⟩ := Option.map_eq_some_iff.mp hmessage
    exact ⟨line, hline, rfl⟩
  · obtain rfl := List.mem_singleton.mp (List.mem_of_getElem? hmessage)
    cases hdefault

end Programs

/-- **What the receivers print.** In every run over every input: the print of the message for a line
    stops within its array and yields the line, as far as it was stored, exactly when the line
    leaves a byte of the array free or has a zero byte in the part stored; the same holds for the
    bytes of a `read` from a pipe; and `m_messageSize` is the number of bytes stored exactly when
    the line fits into the buffer (or is longer by a multiple of 4 GiB). -/
theorem receiver_faithful_iff (lines : List Line) :
    (∀ s, Reach Handshake.step (.start lines) s → ∀ (i : ℕ) read, s.reads[i]? = some read →
      ∃ line : Line, lines[i]? = some line ∧
        (Faithful read.message.buffer (line.take bufferSize) ↔
          line.length < bufferSize ∨ 0 ∈ line.take bufferSize) ∧
        (read.message.messageSize.toNat = (line.take bufferSize).length ↔
          line.length ≤ bufferSize ∨ line.length % 2 ^ 32 = bufferSize)) ∧
    (∀ s, Reach Mqueue.step (.start lines) s → ∀ (i : ℕ) message, s.received[i]? = some message →
      message.messageType = .default →
        ∃ line : Line, lines[i]? = some line ∧
          (Faithful message.data (line.take messageBufferSize) ↔
            line.length < messageBufferSize ∨ 0 ∈ line.take messageBufferSize)) ∧
    ∀ capacity s, Reach (Pipe.step capacity) (.start lines) s →
      s.reads.flatMap PipeRead.bytes <+: lines.flatten ∧
      ∀ r ∈ s.reads,
        Faithful r.buf r.bytes ↔ r.bytes.length < pipeBufferSize ∨ 0 ∈ r.bytes := by
  refine ⟨fun s h i read hi => ?_, fun s h i message hi hdefault => ?_, fun capacity s h => ?_⟩
  · obtain ⟨line, hline, rfl⟩ := read_of_line h hi
    exact ⟨line, hline, faithful_iff bufferSize line, announced_iff line⟩
  · obtain ⟨line, hline, rfl⟩ := message_of_line h hi hdefault
    exact ⟨line, hline, faithful_iff messageBufferSize line⟩
  · have hflow := flow_reach h
    refine ⟨?_, fun r hr => ?_⟩
    · rw [← hflow.bytes, List.append_assoc, List.append_assoc]
      exact List.prefix_append _ _
    · obtain ⟨-, hlen, hbuf⟩ := hflow.reads r hr
      have h := faithful_iff pipeBufferSize r.bytes
      rw [List.take_of_length_le hlen] at h
      rw [hbuf]
      exact h

/-! ## 3. Data that fills the array -/

/-- Without a zero byte the scan leaves an array that the line fills. -/
theorem scan_full {n : ℕ} {line : Line} (hlen : n ≤ line.length) (hnul : 0 ∉ line) :
    scan 0 (List.ofFn (line.copyTo fun _ : Fin n => 0)) = none := by
  rw [ofFn_copyTo, Nat.sub_eq_zero_of_le hlen, List.replicate_zero, List.append_nil]
  exact scan_of_notMem fun h => hnul (List.mem_of_mem_take h)

/-- One line through the shared message: when it fills the buffer, the scan leaves it. -/
theorem handshake_overruns (line : Line) (hsize : line.size ≠ 0) (hlen : bufferSize ≤ line.length)
    (hnul : 0 ∉ line) :
    ∃ s, Reach Handshake.step (.start [line]) s ∧ ∃ read ∈ s.reads,
      read.message.messageSize = line.size ∧ scan 0 (List.ofFn read.message.buffer) = none := by
  have hstored : run Handshake.step (.start [line]) (List.replicate 5 .parent ++ [.child]) =
      some ⟨line.stored, 0, 0, .waitRead, .test, [], [line.stored], []⟩ := rfl
  have htest : Handshake.step ⟨line.stored, 0, 0, .waitRead, .test, [], [line.stored], []⟩ .child =
      some ⟨line.stored, 0, 0, .waitRead, .readSize line.size, [], [line.stored], []⟩ :=
    if_neg hsize
  have hread : run Handshake.step
      ⟨line.stored, 0, 0, .waitRead, .readSize line.size, [], [line.stored], []⟩ [.child, .child] =
      some ⟨line.stored, 0, 0, .waitRead, .postRead, [], [line.stored], [line.stored.seen]⟩ := rfl
  exact ⟨_, ((reach_run hstored).trans (.single trivial htest)).trans (reach_run hread),
    line.stored.seen, List.mem_singleton_self _, rfl, scan_full hlen hnul⟩

/-- One line through the message queue. -/
theorem mqueue_overruns (line : Line) (hlen : messageBufferSize ≤ line.length) (hnul : 0 ∉ line) :
    ∃ s, Reach Mqueue.step (.start [line]) s ∧ ∃ message ∈ s.received,
      message.messageType = .default ∧ scan 0 (List.ofFn message.data) = none :=
  ⟨_, reach_run (show run Mqueue.step (.start [line]) [.parent, .parent, .parent, .child, .child] =
    some _ from rfl), .ofLine line, List.mem_singleton_self _, rfl, scan_full hlen hnul⟩

/-- One line through a pipe, written and read at once. -/
theorem pipe_overruns (line : Line) {capacity : ℕ} (hlen : line.length = pipeBufferSize)
    (hcap : pipeBufferSize ≤ capacity) (hnul : 0 ∉ line) :
    ∃ s, Reach (Pipe.step capacity) (.start [line]) s ∧ ∃ r ∈ s.reads,
      scan 0 (List.ofFn r.buf) = none := by
  have hpos : 0 < line.length := by rw [hlen]; decide
  have hline : Pipe.step capacity (.start [line]) .parent =
      some ⟨[], .write line, .read, [], []⟩ := rfl
  have hcopy : Pipe.step capacity ⟨[], .write line, .read, [], []⟩ (.copy line.length) =
      some ⟨line, .write [], .read, [], []⟩ := by
    simp [Pipe.step, hpos, hlen.le.trans hcap]
  have hread : Pipe.step capacity ⟨line, .write [], .read, [], []⟩ (.read line.length) =
      some ⟨[], .write [], .read, [], [⟨line, line.copyTo fun _ => 0⟩]⟩ := by
    simp [Pipe.step, hpos, hlen.le]
  exact ⟨_, ((ReachWhere.single trivial hline).trans (.single trivial hcopy)).trans
    (.single trivial hread), ⟨line, line.copyTo fun _ => 0⟩, List.mem_singleton_self _,
    scan_full hlen.ge hnul⟩

/-- A line of `n` letters. -/
def letters (n : ℕ) : Line := List.replicate n 65

theorem length_letters (n : ℕ) : (letters n).length = n := List.length_replicate

theorem nul_notMem_letters (n : ℕ) : 0 ∉ letters n := fun h => by
  cases List.eq_of_mem_replicate h

theorem size_letters {n : ℕ} (hn : n < 2 ^ 32) : (letters n).size.toNat = n := by
  rw [Line.size, length_letters, UInt32.toNat_ofNat_of_lt' hn]

theorem size_letters_ne {n : ℕ} (hpos : n ≠ 0) (hn : n < 2 ^ 32) : (letters n).size ≠ 0 :=
  fun hz => hpos ((size_letters hn).symm.trans (congrArg UInt32.toNat hz))

/-- **Data that fills the array leaves no room for the terminator**: with a line of 4092 bytes
    through the shared message, one of 1024 bytes through the message queue and one of 1024 bytes
    through a pipe, the scan leaves the array. And a line of 4093 bytes is announced with its size,
    of which 4092 bytes are stored. -/
theorem receiver_overruns :
    (∃ s, Reach Handshake.step (.start [letters 4092]) s ∧ ∃ read ∈ s.reads,
      scan 0 (List.ofFn read.message.buffer) = none) ∧
    (∃ s, Reach Mqueue.step (.start [letters 1024]) s ∧ ∃ message ∈ s.received,
      message.messageType = .default ∧ scan 0 (List.ofFn message.data) = none) ∧
    (∃ s, Reach (Pipe.step 65536) (.start [letters 1024]) s ∧ ∃ r ∈ s.reads,
      scan 0 (List.ofFn r.buf) = none) ∧
    ∃ s, Reach Handshake.step (.start [letters 4093]) s ∧ ∃ read ∈ s.reads,
      read.message.messageSize.toNat = 4093 ∧
        ((letters 4093).take bufferSize).length = 4092 := by
  refine ⟨?_, mqueue_overruns _ (length_letters 1024).ge (nul_notMem_letters 1024),
    pipe_overruns _ (length_letters 1024) (by decide) (nul_notMem_letters 1024), ?_⟩
  · obtain ⟨s, hs, read, hread, -, hscan⟩ := handshake_overruns (letters 4092)
      (size_letters_ne (by decide) (by decide)) (length_letters 4092).ge (nul_notMem_letters 4092)
    exact ⟨s, hs, read, hread, hscan⟩
  · have hlong : bufferSize ≤ (letters 4093).length := by
      rw [length_letters]
      decide
    obtain ⟨s, hs, read, hread, hsize, -⟩ := handshake_overruns (letters 4093)
      (size_letters_ne (by decide) (by decide)) hlong (nul_notMem_letters 4093)
    refine ⟨s, hs, read, hread, ?_, List.length_take_of_le hlong⟩
    rw [hsize, size_letters (by decide)]

end HseMultithreading.Ipc
