/-
  File:      HseMultithreading/Hw4/Programs.lean
  Subject:   THE TWO PROGRAMS (`hw4/producer_hw4.cpp`, `hw4/consumer_hw4.cpp`) as a user starts
             them: the arguments, the set-up of the shared memory, the queue, the loop, the
             clean-up, every line on either stream and the exit code.

  * `producerMain`, `consumerMain` -- over the system of `Lib/Posix.lean` and the contents of its
    objects, for every outcome of the system calls that set the shared memory up and of the
    `shm_unlink` at the end. Names that differ in the slashes in front are one (`Posix.shmFile`).
  * `queueSize_large`, `queueSize_toString` -- which sizes get past the check.
  * `loop_stops`, `consume_stops` -- the loop of the consumer ends within its fuel, whatever the
    queue holds; `iterate_ready`, `iterate_unready` -- one iteration, in front of a message whose
    text has a terminator and in front of a slot that is not READY.
  * `Attached`, `producerMain_granted`, `consumerMain_granted` -- a run with its shared memory in
    hand, down to the machine it leaves.
-/
import HseMultithreading.Lib.CString
import HseMultithreading.Hw4.Printing
import HseMultithreading.Hw4.Provision
import HseMultithreading.Hw4.Startup

namespace HseMultithreading.Hw4

open Posix

/-! ## 1. The programs -/

/-- The system and the contents of its shared-memory objects. -/
structure Machine where
  os : OS
  memory : ℕ → SharedQueueLayout

/-- A line on the standard output: a fixed one, or one of the consumer's loop. -/
inductive Line where
  | text (s : String)
  | loop (output : Output)
  deriving DecidableEq

/-- What a run shows: the exit code and the two streams. -/
structure Shown where
  exitCode : ℕ
  out : List Line
  err : List String
  deriving DecidableEq

/-- A run that ends with one line on the error stream. -/
def Shown.failure (line : String) : Shown := ⟨1, [], [line]⟩

/-- The object mapped at an address. -/
def Machine.objectAt (m : Machine) (addr : ℕ) : Option ℕ :=
  (m.os.mappings.find? (·.addr == addr)).map (·.object)

/-- The queue at the address of a region. -/
def Machine.load (m : Machine) (region : SharedMemoryRegion) : SharedQueueLayout :=
  (m.objectAt region.addr).elim .zero m.memory

/-- The queue at the address of a region becomes `q`. -/
def Machine.store (m : Machine) (region : SharedMemoryRegion) (q : SharedQueueLayout) : Machine :=
  match m.objectAt region.addr with
  | some object => { m with memory := Function.update m.memory object q }
  | none => m

/-- `close_shared_memory(&region)`. -/
def Machine.close (m : Machine) (region : SharedMemoryRegion) : Machine :=
  { m with os := (closeSharedMemory m.os (some region)).1 }

/-- `unlink_shared_memory`. The call can fail on a name that there is. -/
def Machine.unlink (m : Machine) (file : Option String) (outcome : Bool) : Machine × Bool :=
  match file with
  | none => (m, false)
  | some file =>
    if outcome && (m.os.names file).isSome then ({ m with os := m.os.shmUnlink file }, true)
    else (m, false)

/-- `argv[1]`, or the default. -/
def shmName (args : List String) : String := args.getD 0 "/hw4_queue"

/-- `argv[2]`, or the default; a size below that of the layout is rejected. -/
def queueSize (args : List String) : Option UInt64 :=
  match args[1]? with
  | none => some (UInt64.ofNat queueMemorySize)
  | some arg =>
    let parsedSize := CString.strtoull arg.toList
    if parsedSize.toNat < queueMemorySize then none else some parsedSize

/-- The last line of both reports but one. -/
def sizeLine (size : UInt64) : Line := .text ("Queue size: " ++ toString size.toNat ++ " bytes")

/-- What a successful producer prints. -/
def producerReport (wasCreated : Bool) (size : UInt64) : Shown where
  exitCode := 0
  out :=
    [if wasCreated then .text "Shared memory created and queue initialized"
      else .text "Shared memory opened successfully",
     .text "Pushed NUMBER message: 12345",
     .text "Pushed TEXT message: hello from producer",
     sizeLine size]
  err := []

/-- `producer_hw4` with the queue in its memory: the two pushes. -/
def produce (q : SharedQueueLayout) (wasCreated : Bool) (size : UInt64) :
    SharedQueueLayout × Shown :=
  let q := if wasCreated then initQueue q else q
  if isQueueValid q = false then (q, .failure "Queue is not valid")
  else
    match tryPushMessage q pushNumber with
    | (q, false) => (q, .failure "Failed to push NUMBER message")
    | (q, true) =>
      match tryPushMessage q pushText with
      | (q, false) => (q, .failure "Failed to push TEXT message")
      | (q, true) => (q, producerReport wasCreated size)

/-- The file of the shared memory. With a name that `shm_open` refuses the set-up ends as with a
    null one: it has done nothing and returns `false`. -/
def shmArg (args : List String) : Option String := shmFile (shmName args)

/-- **`main` of `producer_hw4`.** -/
def producerMain (m : Machine) (args : List String) (o : Outcomes) : Machine × Shown :=
  match queueSize args with
  | none => (m, .failure "Queue size is too small")
  | some size =>
    match createOrOpenSharedMemory m.os (shmArg args) size (some .unset) (some false) o with
    | (⟨os, some region, true⟩, wasCreated) =>
      let m := { m with os := os }
      let (q, shown) := produce (m.load region) (wasCreated.getD false) size
      ((m.store region q).close region, shown)
    | (⟨os, _, _⟩, _) =>
      ({ m with os := os }, .failure "Failed to create or open shared memory")

/-- The loop, at most `fuel` iterations of it. -/
def Consumer.loop (w : Wanted) : ℕ → Consumer → Consumer
  | 0, s => s
  | fuel + 1, s => if s.running then loop w fuel (s.iterate w) else s

/-- The lines of the consumer behind its loop. -/
def consumerReport (receivedTextCount skippedCount : ℕ) (size : UInt64) (cleanedUp : Bool) :
    List Line :=
  [.text "Shared memory opened successfully",
   .text "Queue is valid",
   .text ("Received TEXT messages: " ++ toString receivedTextCount),
   .text ("Skipped messages: " ++ toString skippedCount),
   sizeLine size,
   if cleanedUp then .text "Shared memory cleaned up"
    else .text "Failed to cleanup shared memory"]

/-- `consumer_hw4` with the queue in its memory: the loop. It ends within one iteration more than
    there are slots (`loop_stops`). -/
def consume (q : SharedQueueLayout) : Consumer :=
  Consumer.loop .consumer (queueCapacity + 1) (.start q)

/-- **`main` of `consumer_hw4`**; `unlinks` is what `shm_unlink` has in store. -/
def consumerMain (m : Machine) (args : List String) (o : Outcomes) (unlinks : Bool) :
    Machine × Shown :=
  match queueSize args with
  | none => (m, .failure "Queue size is too small")
  | some size =>
    match openSharedMemory m.os (shmArg args) size (some .unset) o with
    | ⟨os, some region, true⟩ =>
      let m := { m with os := os }
      if isQueueValid (m.load region) = false then
        (m.close region, .failure "Queue is not valid")
      else
        let c := consume (m.load region)
        let (m, cleanedUp) := ((m.store region c.queue).close region).unlink (shmArg args) unlinks
        (m, ⟨0, c.output.map .loop ++
          consumerReport c.receivedTextCount c.skippedCount size cleanedUp, []⟩)
    | ⟨os, _, _⟩ => ({ m with os := os }, .failure "Failed to open shared memory")

/-- The program a user starts. -/
inductive Program where
  | producer
  | consumer
  deriving DecidableEq

/-- One run: the program, its arguments, and what the kernel has in store for its calls. -/
structure Command where
  program : Program
  args : List String
  outcomes : Outcomes
  unlinks : Bool

def Command.exec (c : Command) (m : Machine) : Machine × Shown :=
  match c.program with
  | .producer => producerMain m c.args c.outcomes
  | .consumer => consumerMain m c.args c.outcomes c.unlinks

/-- The set-up of the shared memory in this run succeeds. -/
def Command.granted (c : Command) (os : OS) : Bool :=
  match c.program, queueSize c.args with
  | _, none => false
  | .producer, some size =>
    (createOrOpenSharedMemory os (shmArg c.args) size (some .unset) (some false)
      c.outcomes).1.returned
  | .consumer, some size =>
    (openSharedMemory os (shmArg c.args) size (some .unset) c.outcomes).returned

/-- **A session**: runs one after the other, and what each one shows. -/
def Machine.session : Machine → List Command → Machine × List Shown
  | m, [] => (m, [])
  | m, c :: cs =>
    let (m, shown) := c.exec m
    let (m, rest) := m.session cs
    (m, shown :: rest)

/-- Which runs of a session get their shared memory. -/
def Machine.grants : Machine → List Command → List Bool
  | _, [] => []
  | m, c :: cs => c.granted m.os :: (c.exec m).1.grants cs

/-! ## 2. The size -/

section Size

variable {size : UInt64}

/-- A size that is not rejected. -/
theorem queueSize_large {args : List String} (h : queueSize args = some size) :
    queueMemorySize ≤ size.toNat := by
  unfold queueSize at h
  split at h
  · obtain rfl := Option.some.inj h
    decide
  · dsimp only at h
    split at h
    · cases h
    next hlarge =>
      obtain rfl := Option.some.inj h
      exact Nat.not_lt.mp hlarge

theorem queueSize_ne_zero {args : List String} (h : queueSize args = some size) : size ≠ 0 :=
  fun e => absurd (e ▸ queueSize_large h) (by decide)

/-- The size that a run prints can be passed to the next one. -/
theorem queueSize_toString (name : String) {n : ℕ} (hlarge : queueMemorySize ≤ n)
    (hlt : n < 2 ^ 64) : queueSize [name, toString n] = some (UInt64.ofNat n) := by
  have hn : (UInt64.ofNat n).toNat = n := UInt64.toNat_ofNat_of_lt hlt
  simp only [queueSize, List.getElem?_cons_succ, List.getElem?_cons_zero,
    CString.strtoull_toString hlt, hn, if_neg (Nat.not_lt.mpr hlarge)]

end Size

/-! ## 3. The loop -/

/-- The line the loop prints for a message. -/
def Message.line (m : Message) : Output :=
  if Wanted.consumer.wants m then .received (some (CString.text 0 m.bytes)) else .skipped

section Loop

variable {s : Consumer} {q : SharedQueueLayout}

/-- **The loop has ended when its fuel is used up.** -/
theorem loop_stops {w : Wanted} : ∀ {fuel : ℕ} {s : Consumer}, Survives w q s → s.left ≤ fuel →
    (Consumer.loop w fuel s).running = false := by
  intro fuel
  induction fuel with
  | zero =>
      intro s _ hleft
      refine Bool.eq_false_iff.mpr fun (hrun : s.running = true) => ?_
      unfold Consumer.left at hleft
      rw [if_pos hrun] at hleft
      omega
  | succ fuel ih =>
      intro s h hleft
      unfold Consumer.loop
      split
      next hrun =>
        obtain ⟨h', hless⟩ := h.iterate hrun
        exact ih h' (by omega)
      next hstop => exact Bool.eq_false_iff.mpr hstop

theorem loop_of_stopped {w : Wanted} {fuel : ℕ} (h : s.running = false) :
    Consumer.loop w fuel s = s := by
  cases fuel with
  | zero => rfl
  | succ fuel =>
      unfold Consumer.loop
      rw [h]
      rfl

theorem consume_stops (q : SharedQueueLayout) : (consume q).running = false := by
  refine loop_stops (survives_start .consumer q) ?_
  have hcard : q.readyCount ≤ queueCapacity :=
    (Finset.card_le_univ _).trans_eq (Fintype.card_fin queueCapacity)
  show q.readyCount + 1 ≤ _
  omega

/-- **One iteration in front of a slot that is not READY**: the loop ends. -/
theorem iterate_unready (h : s.slot.state ≠ SlotState.ready.code) :
    s.iterate .consumer = { s with running := false, calls := s.calls ++ [s.kept] } := by
  rcases iterate_cases .consumer s with ⟨-, e⟩ | ⟨ht, -⟩ | ⟨ht, -⟩ | ⟨ht, -⟩
  · exact e
  all_goals exact absurd ht.1 h

/-- **One iteration in front of a message**: the text of a TEXT message with a terminator is printed
    whatever was in the buffer. -/
theorem iterate_ready {m : Message} (hready : s.slot.state = SlotState.ready.code)
    (hm : s.slot.message = m) (hfits : m.length.toNat ≤ maxPayloadSize)
    (hindex : s.queue.readIndex.toNat + 1 < 2 ^ 64)
    (hend : Wanted.consumer.wants m = true → 0 ∈ m.bytes) :
    (s.iterate .consumer).running = s.running ∧
      (s.iterate .consumer).queue = s.queue.release ∧
      (s.iterate .consumer).output = s.output ++ [m.line] ∧
      (s.iterate .consumer).receivedTextCount =
        s.receivedTextCount + [m].countP Wanted.consumer.wants ∧
      (s.iterate .consumer).skippedCount =
        s.skippedCount + [m].countP fun m => !Wanted.consumer.wants m := by
  have hlength : s.slot.header.length = m.length := congrArg Message.length hm
  have ht : Takes s.queue (Wanted.consumer.job s.buffer s.header) := by
    refine ⟨hready, ?_, ?_⟩
    all_goals
      show s.slot.header.length.toNat ≤ _
      rw [hlength]
      exact hfits
  rcases iterate_cases .consumer s with ⟨hno, -⟩ | ⟨-, hty, e⟩ | ⟨-, hty, -, e⟩ | ⟨-, -, hwrap, -⟩
  · exact absurd ht hno
  · have hwant : Wanted.consumer.wants m = true := decide_eq_true (hm ▸ hty)
    have hprinted : CString.scan 0 (readBytes s.filled maxPayloadSize) =
        some (CString.text 0 m.bytes) := by
      have hsplit : maxPayloadSize = s.slot.header.length.toNat +
          (maxPayloadSize - s.slot.header.length.toNat) := (Nat.add_sub_cancel' ht.2.1).symm
      rw [hsplit, readBytes_add, readBytes_filled ht, hm]
      exact CString.scan_append_iff.mpr (.inl (hend hwant))
    have hline : m.line = .received (some (CString.text 0 m.bytes)) := if_pos hwant
    rw [e, hline]
    refine ⟨rfl, rfl, ?_, by simp [hwant], by simp [hwant]⟩
    show _ ++ [Output.received (CString.scan 0 (readBytes s.filled maxPayloadSize))] = _
    rw [hprinted]
  · have hwant : Wanted.consumer.wants m = false := decide_eq_false (hm ▸ hty)
    have hline : m.line = .skipped := if_neg (by rw [hwant]; nofun)
    rw [e, hline]
    exact ⟨rfl, rfl, rfl, by simp [hwant], by simp [hwant]⟩
  · refine absurd (UInt64.lt_iff_toNat_lt.mpr ?_) hwrap
    rw [UInt64.toNat_add, UInt64.toNat_one]
    omega

end Loop

/-! ## 4. A run with its shared memory -/

/-- No descriptor and no mapping is left behind. -/
def Reclaimed (m m' : Machine) : Prop :=
  m'.os.descriptors = m.os.descriptors ∧ m'.os.mappings = m.os.mappings

/-- **A run with its shared memory in hand**: the region leads to `object`, and closing it leaves
    the names and the sizes of `os`. -/
structure Attached (m : Machine) (os : OS) (object : ℕ) (r : SetupResult)
    (region : SharedMemoryRegion) : Prop where
  recorded : r.region = some region
  leads : ({ m with os := r.os } : Machine).objectAt region.addr = some object
  names : (closeSharedMemory r.os (some region)).1.names = os.names
  sizes : (closeSharedMemory r.os (some region)).1.sizes = os.sizes
  reclaimed : Reclaimed m { m with os := (closeSharedMemory r.os (some region)).1 }

section Runs

variable {m : Machine} {os : OS} {size : UInt64} {object : ℕ} {r : SetupResult}
  {region : SharedMemoryRegion}

theorem names_close (os : OS) (region : Option SharedMemoryRegion) :
    (closeSharedMemory os region).1.names = os.names ∧
      (closeSharedMemory os region).1.sizes = os.sizes := by
  unfold closeSharedMemory
  split
  · exact ⟨rfl, rfl⟩
  · dsimp only
    split <;> split <;> exact ⟨rfl, rfl⟩

theorem Provides.attached (h : Provides m.os os size object r) :
    ∃ region, Attached m os object r region := by
  obtain ⟨fd, mapping, hobject, hacq⟩ := h.acquired
  have hview := hacq.released.1
  rw [hacq.region] at hview
  refine ⟨_, hacq.region, ?_, ?_, ?_, congrArg View.descriptors hview, congrArg View.mappings hview⟩
  · unfold Machine.objectAt
    simp only [hacq.mappings, List.find?_cons, beq_self_eq_true, Option.map_some, hobject]
  · rw [(names_close _ _).1, h.names]
  · rw [(names_close _ _).2, h.sizes]

theorem Attached.load (h : Attached m os object r region) :
    ({ m with os := r.os } : Machine).load region = m.memory object := by
  unfold Machine.load
  rw [h.leads]
  rfl

/-- The machine after a run that has left `q` in its queue and closed it. -/
def Machine.left (m : Machine) (r : SetupResult) (region : SharedMemoryRegion) (object : ℕ)
    (q : SharedQueueLayout) : Machine :=
  ⟨(closeSharedMemory r.os (some region)).1, Function.update m.memory object q⟩

theorem Attached.store (h : Attached m os object r region) (q : SharedQueueLayout) :
    (({ m with os := r.os } : Machine).store region q).close region =
      m.left r region object q := by
  unfold Machine.store
  rw [h.leads]
  rfl

/-- A producer with its shared memory in hand. -/
theorem producerMain_granted {args : List String} {o : Outcomes} {wasCreated : Bool}
    (hsize : queueSize args = some size)
    (hr : createOrOpenSharedMemory m.os (shmArg args) size (some .unset) (some false) o =
      (r, some wasCreated))
    (hok : r.returned = true) (h : Attached m os object r region) :
    producerMain m args o =
      (m.left r region object (produce (m.memory object) wasCreated size).1,
        (produce (m.memory object) wasCreated size).2) := by
  obtain ⟨os', region', returned⟩ := r
  obtain rfl : returned = true := hok
  obtain rfl : region' = some region := h.recorded
  simp only [producerMain, hsize, hr, Option.getD_some]
  rw [h.load, h.store]

/-- A consumer with its shared memory in hand, and a valid queue in it. -/
theorem consumerMain_granted {args : List String} {o : Outcomes} (unlinks : Bool) {file : String}
    (hsize : queueSize args = some size) (hfile : shmArg args = some file)
    (hr : openSharedMemory m.os (some file) size (some .unset) o = r)
    (hok : r.returned = true) (h : Attached m os object r region)
    (hvalid : isQueueValid (m.memory object) = true) (hname : os.names file ≠ none) :
    consumerMain m args o unlinks =
      (if unlinks then
          { m.left r region object (consume (m.memory object)).queue with
            os := (m.left r region object (consume (m.memory object)).queue).os.shmUnlink file }
        else m.left r region object (consume (m.memory object)).queue,
        ⟨0, (consume (m.memory object)).output.map .loop ++
          consumerReport (consume (m.memory object)).receivedTextCount
            (consume (m.memory object)).skippedCount size unlinks, []⟩) := by
  obtain ⟨os', region', returned⟩ := r
  obtain rfl : returned = true := hok
  obtain rfl : region' = some region := h.recorded
  have hbound : ∀ q,
      ((m.left ⟨os', some region, true⟩ region object q).os.names file).isSome = true := by
    intro q
    show ((closeSharedMemory os' (some region)).1.names file).isSome = true
    rw [h.names]
    exact Option.isSome_iff_ne_none.mpr hname
  simp only [consumerMain, hsize, hfile, hr]
  rw [h.load, if_neg (by rw [hvalid]; nofun), h.store]
  cases unlinks with
  | false => rfl
  | true => simp only [Machine.unlink, hbound, Bool.and_self, if_true]

end Runs

end HseMultithreading.Hw4
