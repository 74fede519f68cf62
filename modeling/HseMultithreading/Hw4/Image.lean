/-
  File:      HseMultithreading/Hw4/Image.lean
  Subject:   THE BYTES BEHIND `SharedQueueLayout`: what two processes share is
             `get_queue_memory_size()` bytes, and every access of `hw4/ipc_queue.cpp` is a load or a
             store of some of them.

  * `layoutMembers` -- the structs of `hw4/ipc_queue.h`, member by member; the offsets are those the
    rules for C structs give (words little-endian). A field goes by the store of `init_queue` to it.
  * `record` -- the fields tile the memory: no padding, no overlap, each aligned to its width
    (`fieldWidth_dvd`).
  * **`bytes_roundtrip`** -- a layout and the bytes of the memory determine each other.
  * `bytePush`, `bytePop`, `InitWrite.put` -- the steps on bytes; `ByteSystem` -- the step machine
    on them.
  * **`bytes_refine`** -- a schedule is possible on the bytes exactly when it is possible on the
    layout, every party then stands at the same place and the bytes are those of the queue; no byte
    behind the layout is touched.
-/
import HseMultithreading.Lib.Bytes
import HseMultithreading.Hw4.Startup

namespace HseMultithreading.Hw4

open StepSystem Bytes

/-! ## 1. Places -/

/-- `struct MessageHeader`. -/
def headerMembers : List Shape := [.scalar 4, .scalar 4]

/-- `struct QueueMeta`. -/
def metaMembers : List Shape := [.scalar 4, .scalar 4, .scalar 4, .scalar 4]

/-- `struct MessageSlot`. -/
def slotMembers : List Shape :=
  [.scalar 4, .struct headerMembers, .array (.scalar 1) maxPayloadSize]

/-- `struct SharedQueueLayout`. -/
def layoutMembers : List Shape :=
  [.struct metaMembers, .scalar 8, .scalar 8, .array (.struct slotMembers) queueCapacity]

/-- A field of the layout: `init_queue` stores to each of them once. -/
abbrev Field := InitWrite

/-- Where `get_slot` points. -/
def slotOffset (i : Fin queueCapacity) : ℕ :=
  Shape.offset layoutMembers 3 + i.val * (Shape.struct slotMembers).size

def fieldOffset : Field → ℕ
  | .magic => Shape.offset layoutMembers 0 + Shape.offset metaMembers 0
  | .version => Shape.offset layoutMembers 0 + Shape.offset metaMembers 1
  | .capacity => Shape.offset layoutMembers 0 + Shape.offset metaMembers 2
  | .maxPayloadSize => Shape.offset layoutMembers 0 + Shape.offset metaMembers 3
  | .writeIndex => Shape.offset layoutMembers 1
  | .readIndex => Shape.offset layoutMembers 2
  | .state i => slotOffset i + Shape.offset slotMembers 0
  | .type i => slotOffset i + Shape.offset slotMembers 1 + Shape.offset headerMembers 0
  | .length i => slotOffset i + Shape.offset slotMembers 1 + Shape.offset headerMembers 1
  | .byte i k => slotOffset i + Shape.offset slotMembers 2 + k.val

def fieldWidth : Field → ℕ
  | .writeIndex | .readIndex => 8
  | .byte _ _ => 1
  | .magic | .version | .capacity | .maxPayloadSize | .state _ | .type _ | .length _ => 4

/-- The field a byte belongs to. -/
def fieldAt (a : ℕ) : Field :=
  if a < 4 then .magic
  else if a < 8 then .version
  else if a < 12 then .capacity
  else if a < 16 then .maxPayloadSize
  else if a < 24 then .writeIndex
  else if a < 32 then .readIndex
  else
    let i : Fin queueCapacity := Fin.ofNat 16 ((a - 32) / 268)
    let r := (a - 32) % 268
    if r < 4 then .state i
    else if r < 8 then .type i
    else if r < 12 then .length i
    else .byte i (Fin.ofNat 256 (r - 12))

/-- `sizeof(SharedQueueLayout)` is the size that `get_queue_memory_size` reports. -/
theorem layout_size : (Shape.struct layoutMembers).size = queueMemorySize := rfl

section Places

variable (i : Fin queueCapacity) (k : Fin maxPayloadSize)

theorem fieldOffset_state : fieldOffset (.state i) = 32 + i.val * 268 := rfl

theorem fieldOffset_type : fieldOffset (.type i) = 32 + i.val * 268 + 4 := rfl

theorem fieldOffset_length : fieldOffset (.length i) = 32 + i.val * 268 + 8 := rfl

theorem fieldOffset_byte : fieldOffset (.byte i k) = 32 + i.val * 268 + 12 + k.val := rfl

end Places

/-- **Every field is aligned to its width.** -/
theorem fieldWidth_dvd (f : Field) : fieldWidth f ∣ fieldOffset f := by
  cases f with
  | byte i k => exact Nat.one_dvd _
  | state i => rw [fieldOffset_state]; show 4 ∣ _; omega
  | type i => rw [fieldOffset_type]; show 4 ∣ _; omega
  | length i => rw [fieldOffset_length]; show 4 ∣ _; omega
  | _ => decide

theorem field_inside (f : Field) : fieldOffset f + fieldWidth f ≤ queueMemorySize := by
  show _ ≤ 4320
  cases f with
  | state i => have := slot_lt i; rw [fieldOffset_state]; simp only [fieldWidth]; omega
  | type i => have := slot_lt i; rw [fieldOffset_type]; simp only [fieldWidth]; omega
  | length i => have := slot_lt i; rw [fieldOffset_length]; simp only [fieldWidth]; omega
  | byte i k =>
      have := slot_lt i
      have hk : k.val < 256 := k.isLt
      rw [fieldOffset_byte]
      simp only [fieldWidth]
      omega
  | _ => decide

/-- A byte of a slot. -/
theorem fieldAt_slot (i : Fin queueCapacity) {a r : ℕ} (ha : a = 32 + i.val * 268 + r)
    (hr : r < 268) :
    fieldAt a = if r < 4 then .state i else if r < 8 then .type i else if r < 12 then .length i
      else .byte i (Fin.ofNat 256 (r - 12)) := by
  have hi : Fin.ofNat 16 ((a - 32) / 268) = i := by
    apply Fin.ext
    have := slot_lt i
    rw [Fin.val_ofNat]
    omega
  have hmod : (a - 32) % 268 = r := by omega
  unfold fieldAt
  rw [if_neg (by omega), if_neg (by omega), if_neg (by omega), if_neg (by omega),
    if_neg (by omega), if_neg (by omega)]
  simp only [hi, hmod]

theorem fieldAt_head : ∀ f ∈ [InitWrite.magic, .version, .capacity, .maxPayloadSize, .writeIndex,
      .readIndex],
    ∀ a < 32, fieldOffset f ≤ a → a < fieldOffset f + fieldWidth f → fieldAt a = f := by
  decide

theorem fieldAt_only (f : Field) (a : ℕ) (h : fieldOffset f ≤ a)
    (h' : a < fieldOffset f + fieldWidth f) : fieldAt a = f := by
  cases f with
  | state i =>
      rw [fieldOffset_state] at h h'
      obtain ⟨r, rfl⟩ := Nat.exists_eq_add_of_le h
      have hr : r < 4 := by simp only [fieldWidth] at h'; omega
      rw [fieldAt_slot i rfl (by omega), if_pos hr]
  | type i =>
      rw [fieldOffset_type] at h h'
      obtain ⟨r, rfl⟩ := Nat.exists_eq_add_of_le h
      have hr : r < 4 := by simp only [fieldWidth] at h'; omega
      rw [fieldAt_slot i (Nat.add_assoc _ 4 r) (by omega), if_neg (by omega), if_pos (by omega)]
  | length i =>
      rw [fieldOffset_length] at h h'
      obtain ⟨r, rfl⟩ := Nat.exists_eq_add_of_le h
      have hr : r < 4 := by simp only [fieldWidth] at h'; omega
      rw [fieldAt_slot i (Nat.add_assoc _ 8 r) (by omega), if_neg (by omega), if_neg (by omega),
        if_pos (by omega)]
  | byte i k =>
      have hk : k.val < 256 := k.isLt
      rw [fieldOffset_byte] at h h'
      obtain rfl : a = 32 + i.val * 268 + (12 + k.val) := by simp only [fieldWidth] at h'; omega
      rw [fieldAt_slot i rfl (by omega), if_neg (by omega), if_neg (by omega), if_neg (by omega),
        Nat.add_sub_cancel_left]
      congr 1
      exact Fin.ext (Nat.mod_eq_of_lt hk)
  | _ => exact fieldAt_head _ (by decide) a (Nat.lt_of_lt_of_le h' (by decide)) h h'

theorem fieldAt_covers (a : ℕ) (h : a < queueMemorySize) :
    fieldOffset (fieldAt a) ≤ a ∧ a < fieldOffset (fieldAt a) + fieldWidth (fieldAt a) := by
  have h : a < 4320 := h
  by_cases hslot : a < 32
  · have hhead : ∀ a < 32, fieldOffset (fieldAt a) ≤ a ∧
        a < fieldOffset (fieldAt a) + fieldWidth (fieldAt a) := by decide
    exact hhead a hslot
  · have ha : a = 32 + (Fin.ofNat 16 ((a - 32) / 268)).val * 268 + (a - 32) % 268 := by
      rw [Fin.val_ofNat]
      omega
    have hr : (a - 32) % 268 < 268 := Nat.mod_lt _ (by decide)
    rw [fieldAt_slot _ ha hr]
    generalize Fin.ofNat 16 ((a - 32) / 268) = i at ha
    split
    · rw [fieldOffset_state]
      simp only [fieldWidth]
      omega
    · split
      · rw [fieldOffset_type]
        simp only [fieldWidth]
        omega
      · split
        · rw [fieldOffset_length]
          simp only [fieldWidth]
          omega
        · have hk : ((a - 32) % 268 - 12) % 256 = (a - 32) % 268 - 12 :=
            Nat.mod_eq_of_lt (by omega)
          rw [fieldOffset_byte, Fin.val_ofNat, hk]
          simp only [fieldWidth]
          omega

/-- The fields tile the memory. -/
def record : Record Field where
  offset := fieldOffset
  width := fieldWidth
  size := queueMemorySize
  fieldAt := fieldAt
  inside := field_inside
  covers := fieldAt_covers
  only := fieldAt_only

/-! ## 2. Layout and bytes -/

/-- The word a layout has in a field. -/
def SharedQueueLayout.word (q : SharedQueueLayout) : Field → ℕ
  | .magic => q.queueMeta.magic.toNat
  | .version => q.queueMeta.version.toNat
  | .capacity => q.queueMeta.capacity.toNat
  | .maxPayloadSize => q.queueMeta.maxPayloadSize.toNat
  | .writeIndex => q.writeIndex.toNat
  | .readIndex => q.readIndex.toNat
  | .state i => (q.slots i).state.toNat
  | .type i => (q.slots i).header.type.toNat
  | .length i => (q.slots i).header.length.toNat
  | .byte i k => ((q.slots i).payload k).toNat

def MessageSlot.ofWords (w : Field → ℕ) (i : Fin queueCapacity) : MessageSlot :=
  ⟨.ofNat (w (.state i)), ⟨.ofNat (w (.type i)), .ofNat (w (.length i))⟩,
    fun k => .ofNat (w (.byte i k))⟩

def QueueMeta.ofWords (w : Field → ℕ) : QueueMeta :=
  ⟨.ofNat (w .magic), .ofNat (w .version), .ofNat (w .capacity), .ofNat (w .maxPayloadSize)⟩

def SharedQueueLayout.ofWords (w : Field → ℕ) : SharedQueueLayout :=
  ⟨.ofWords w, .ofNat (w .writeIndex), .ofNat (w .readIndex), .ofWords w⟩

/-- What a process that maps the memory sees. -/
def SharedQueueLayout.ofBytes (m : ℕ → UInt8) : SharedQueueLayout := .ofWords (record.word m)

/-- The memory with the layout in it. -/
def SharedQueueLayout.toBytes (q : SharedQueueLayout) (m : ℕ → UInt8) : ℕ → UInt8 :=
  record.image m q.word

theorem word_lt (q : SharedQueueLayout) (f : Field) : q.word f < 256 ^ fieldWidth f := by
  cases f with
  | writeIndex => exact q.writeIndex.toNat_lt
  | readIndex => exact q.readIndex.toNat_lt
  | byte i k => exact ((q.slots i).payload k).toNat_lt
  | magic | version | capacity | maxPayloadSize | state i | type i | length i =>
      exact UInt32.toNat_lt _

theorem ofWords_word (q : SharedQueueLayout) : SharedQueueLayout.ofWords q.word = q := by
  obtain ⟨⟨magic, version, capacity, size⟩, write, read, slots⟩ := q
  simp only [SharedQueueLayout.ofWords, QueueMeta.ofWords, SharedQueueLayout.word,
    UInt32.ofNat_toNat, UInt64.ofNat_toNat]
  congr 1
  funext i
  simp only [MessageSlot.ofWords, SharedQueueLayout.word, UInt32.ofNat_toNat, UInt8.ofNat_toNat]

theorem word_ofWords {w : Field → ℕ} (h : ∀ f, w f < 256 ^ fieldWidth f) :
    (SharedQueueLayout.ofWords w).word = w := by
  funext f
  have hf := h f
  cases f with
  | writeIndex | readIndex => exact UInt64.toNat_ofNat_of_lt' hf
  | byte i k => exact UInt8.toNat_ofNat_of_lt' hf
  | magic | version | capacity | maxPayloadSize | state i | type i | length i =>
      exact UInt32.toNat_ofNat_of_lt' hf

/-- **The layout and the bytes determine each other**: the bytes a layout is written to read as that
    layout, writing what was read changes nothing, and the bytes of the memory, all
    `get_queue_memory_size()` of them and no more, are given by the layout alone. -/
theorem bytes_roundtrip (q : SharedQueueLayout) (m : ℕ → UInt8) :
    SharedQueueLayout.ofBytes (q.toBytes m) = q ∧
    (SharedQueueLayout.ofBytes m).toBytes m = m ∧
    (∀ m' a, a < queueMemorySize → q.toBytes m a = q.toBytes m' a) ∧
    ∀ a, queueMemorySize ≤ a → q.toBytes m a = m a := by
  refine ⟨?_, ?_, fun m' a ha => record.image_congr m m' q.word ha,
    fun a ha => record.image_of_le m q.word ha⟩
  · have hwords : record.word (q.toBytes m) = q.word :=
      funext fun f => record.word_image m (word_lt q f)
    rw [SharedQueueLayout.ofBytes, hwords, ofWords_word]
  · rw [SharedQueueLayout.toBytes, SharedQueueLayout.ofBytes, word_ofWords (record.word_lt m)]
    exact record.image_word m

/-! ## 3. Stores -/

/-- The slot a field belongs to. -/
def InitWrite.slot : Field → Option (Fin queueCapacity)
  | .state i | .type i | .length i | .byte i _ => some i
  | .magic | .version | .capacity | .maxPayloadSize | .writeIndex | .readIndex => none

section Stores

variable (m : ℕ → UInt8) (i : Fin queueCapacity)

theorem ofBytes_put {f : Field} {v : ℕ} (h : v < 256 ^ fieldWidth f) :
    SharedQueueLayout.ofBytes (record.put m f v) =
      .ofWords (Function.update (record.word m) f v) := by
  rw [SharedQueueLayout.ofBytes, record.word_put m h]

variable {w : Field → ℕ} {f : Field} {v : ℕ}

/-- A store leaves the slots alone that its field is not of. -/
theorem slotWords_update {j : Fin queueCapacity} (h : f.slot ≠ some j) :
    MessageSlot.ofWords (Function.update w f v) j = .ofWords w j := by
  have hj : ∀ g : Field, g.slot = some j → Function.update w f v g = w g :=
    fun g hg => Function.update_of_ne (fun e => h (by rw [← e]; exact hg)) v w
  simp only [MessageSlot.ofWords, hj (.state j) rfl, hj (.type j) rfl, hj (.length j) rfl,
    fun k => hj (.byte j k) rfl]

/-- A store to a field of a slot changes this slot and nothing else. -/
theorem ofWords_slot {i : Fin queueCapacity} (h : f.slot = some i) :
    SharedQueueLayout.ofWords (Function.update w f v) =
      (SharedQueueLayout.ofWords w).setSlot i (.ofWords (Function.update w f v) i) := by
  have hhead : ∀ g : Field, g.slot = none → Function.update w f v g = w g :=
    fun g hg => Function.update_of_ne (fun e => by rw [e, h] at hg; cases hg) v w
  have hslots : Function.update (MessageSlot.ofWords w) i (.ofWords (Function.update w f v) i) =
      MessageSlot.ofWords (Function.update w f v) := by
    funext j
    by_cases e : j = i
    · subst e
      rw [Function.update_self]
    · rw [Function.update_of_ne e, slotWords_update fun e' => e (Option.some.inj (e'.symm.trans h))]
  unfold SharedQueueLayout.ofWords SharedQueueLayout.setSlot QueueMeta.ofWords
  rw [hslots]
  simp only [hhead .magic rfl, hhead .version rfl, hhead .capacity rfl, hhead .maxPayloadSize rfl,
    hhead .writeIndex rfl, hhead .readIndex rfl]

theorem putState_ofBytes (v : UInt32) :
    SharedQueueLayout.ofBytes (record.put m (.state i) v.toNat) =
      (SharedQueueLayout.ofBytes m).setSlot i
        { (SharedQueueLayout.ofBytes m).slots i with state := v } := by
  rw [ofBytes_put m (f := .state i) v.toNat_lt, ofWords_slot rfl]
  simp [SharedQueueLayout.ofBytes, SharedQueueLayout.ofWords, MessageSlot.ofWords]

theorem putType_ofBytes (v : UInt32) :
    SharedQueueLayout.ofBytes (record.put m (.type i) v.toNat) =
      (SharedQueueLayout.ofBytes m).setSlot i { (SharedQueueLayout.ofBytes m).slots i with
        header := ⟨v, ((SharedQueueLayout.ofBytes m).slots i).header.length⟩ } := by
  rw [ofBytes_put m (f := .type i) v.toNat_lt, ofWords_slot rfl]
  simp [SharedQueueLayout.ofBytes, SharedQueueLayout.ofWords, MessageSlot.ofWords]

theorem putLength_ofBytes (v : UInt32) :
    SharedQueueLayout.ofBytes (record.put m (.length i) v.toNat) =
      (SharedQueueLayout.ofBytes m).setSlot i { (SharedQueueLayout.ofBytes m).slots i with
        header := ⟨((SharedQueueLayout.ofBytes m).slots i).header.type, v⟩ } := by
  rw [ofBytes_put m (f := .length i) v.toNat_lt, ofWords_slot rfl]
  simp [SharedQueueLayout.ofBytes, SharedQueueLayout.ofWords, MessageSlot.ofWords]

theorem putByte_ofBytes (k : Fin maxPayloadSize) (v : UInt8) :
    SharedQueueLayout.ofBytes (record.put m (.byte i k) v.toNat) =
      (SharedQueueLayout.ofBytes m).setSlot i { (SharedQueueLayout.ofBytes m).slots i with
        payload := ((SharedQueueLayout.ofBytes m).slots i).payload.put k v } := by
  rw [ofBytes_put m (f := .byte i k) v.toNat_lt, ofWords_slot rfl]
  have hpayload : (fun j => UInt8.ofNat (Function.update (record.word m) (.byte i k) v.toNat
      (.byte i j))) = Payload.put (fun j => .ofNat (record.word m (.byte i j))) k v := by
    funext j
    unfold Payload.put
    by_cases e : j = k
    · subst e
      rw [Function.update_self, Function.update_self, UInt8.ofNat_toNat]
    · rw [Function.update_of_ne e, Function.update_of_ne fun e' => e (InitWrite.byte.inj e').2]
  simp [SharedQueueLayout.ofBytes, SharedQueueLayout.ofWords, MessageSlot.ofWords, hpayload]

theorem putWriteIndex_ofBytes (v : UInt64) :
    SharedQueueLayout.ofBytes (record.put m .writeIndex v.toNat) =
      { SharedQueueLayout.ofBytes m with writeIndex := v } := by
  have hslots : MessageSlot.ofWords (Function.update (record.word m) .writeIndex v.toNat) =
      .ofWords (record.word m) := funext fun j => slotWords_update fun e => by cases e
  rw [ofBytes_put m (f := .writeIndex) v.toNat_lt]
  simp [SharedQueueLayout.ofBytes, SharedQueueLayout.ofWords, QueueMeta.ofWords, hslots]

theorem putReadIndex_ofBytes (v : UInt64) :
    SharedQueueLayout.ofBytes (record.put m .readIndex v.toNat) =
      { SharedQueueLayout.ofBytes m with readIndex := v } := by
  have hslots : MessageSlot.ofWords (Function.update (record.word m) .readIndex v.toNat) =
      .ofWords (record.word m) := funext fun j => slotWords_update fun e => by cases e
  rw [ofBytes_put m (f := .readIndex) v.toNat_lt]
  simp [SharedQueueLayout.ofBytes, SharedQueueLayout.ofWords, QueueMeta.ofWords, hslots]

end Stores

/-! ## 4. The machine on bytes -/

/-- What `init_queue` stores. -/
def InitWrite.value : InitWrite → ℕ
  | .magic => protocolMagic.toNat
  | .version => protocolVersion.toNat
  | .capacity => queueCapacity
  | .maxPayloadSize => Hw4.maxPayloadSize
  | .state _ => SlotState.empty.code.toNat
  | .type _ => MessageType.unknown.code.toNat
  | .length _ | .byte _ _ | .writeIndex | .readIndex => 0

/-- `init_queue` on bytes. -/
def initBytes (m : ℕ → UInt8) : ℕ → UInt8 :=
  initWrites.foldl (fun m f => record.put m f f.value) m

/-- `is_queue_valid` on bytes. -/
def validBytes (m : ℕ → UInt8) : Bool :=
  if record.word m .magic ≠ protocolMagic.toNat then false
  else if record.word m .version ≠ protocolVersion.toNat then false
  else if record.word m .capacity ≠ queueCapacity then false
  else if record.word m .maxPayloadSize ≠ maxPayloadSize then false
  else true

/-- One step of a push on bytes. -/
def bytePush (m : ℕ → UInt8) : PushPc → (ℕ → UInt8) × Option PushPc
  | .fetchAdd job =>
    let index := UInt64.ofNat (record.word m .writeIndex)
    (record.put m .writeIndex (index + 1).toNat, some (.compareExchange job index))
  | .compareExchange job index =>
    let i := getSlot index
    if record.word m (.state i) = SlotState.empty.code.toNat then
      (record.put m (.state i) SlotState.writing.code.toNat, some (.putType job i))
    else (m, some (.done false))
  | .putType job i => (record.put m (.type i) job.type.toNat, some (.putLength job i))
  | .putLength job i =>
    (record.put m (.length i) (UInt32.ofNat job.length).toNat, some (.copyByte job i 0))
  | .copyByte job i k =>
    if h : k < job.length then
      (record.put m (.byte i ⟨k, Nat.le_trans h job.fits⟩) (job.data k).toNat,
        some (.copyByte job i (k + 1)))
    else (record.put m (.state i) SlotState.ready.code.toNat, some (.done true))
  | .done _ => (m, none)

/-- One step of a pop on bytes. -/
def bytePop (m : ℕ → UInt8) : PopPc → (ℕ → UInt8) × Option PopPc
  | .loadIndex job => (m, some (.loadState job (.ofNat (record.word m .readIndex))))
  | .loadState job index =>
    if record.word m (.state (getSlot index)) = SlotState.ready.code.toNat then
      (m, some (.loadType job index))
    else (m, some (.done job false))
  | .loadType job index =>
    (m, some (.loadLength job index (.ofNat (record.word m (.type (getSlot index))))))
  | .loadLength job index type =>
    (m, some (.onHeader job index type (.ofNat (record.word m (.length (getSlot index))))))
  | .copyByte job index h k =>
    if hk : k < h.header.length.toNat then
      let b := record.word m (.byte (getSlot index) ⟨k, Nat.le_trans hk h.fits⟩)
      (m, some (.copyByte (job.put k (.ofNat b)) index h (k + 1)))
    else (m, some (.clearType { job with header := h.header } index h))
  | .clearType job index h =>
    (record.put m (.type (getSlot index)) MessageType.unknown.code.toNat,
      some (.clearLength job index h))
  | .clearLength job index h =>
    (record.put m (.length (getSlot index)) 0, some (.clearByte job index h 0))
  | .clearByte job index h k =>
    if hk : k < maxPayloadSize then
      (record.put m (.byte (getSlot index) ⟨k, hk⟩) 0, some (.clearByte job index h (k + 1)))
    else
      (record.put m (.state (getSlot index)) SlotState.empty.code.toNat,
        some (.storeIndex job index h))
  | .storeIndex job index h =>
    (record.put m .readIndex (index + 1).toNat,
      some (.done job (h.header.type = job.expected)))
  | .done _ _ => (m, none)

/-- All parties with the bytes they share. -/
structure ByteSystem where
  memory : ℕ → UInt8
  producers : ℕ → Option PushPc
  halted : ℕ → Bool
  consumer : Option PopPc

/-- The system on bytes that `init_queue` has just set up. -/
def ByteSystem.start (bytes : ℕ → UInt8) : ByteSystem :=
  ⟨initBytes bytes, fun _ => none, fun _ => false, none⟩

def ByteSystem.produce (b : ByteSystem) (p : ℕ) (pc : PushPc) : ByteSystem :=
  { b with
    memory := (bytePush b.memory pc).1
    producers := Function.update b.producers p (bytePush b.memory pc).2 }

def ByteSystem.consume (b : ByteSystem) (pc : PopPc) : ByteSystem :=
  { b with memory := (bytePop b.memory pc).1, consumer := (bytePop b.memory pc).2 }

def ByteSystem.step (b : ByteSystem) : Action → Option ByteSystem
  | .push p a =>
    if b.halted p then none
    else match b.producers p with
      | none => some { b with producers := Function.update b.producers p (some a.enter) }
      | some _ => none
  | .produce p =>
    if b.halted p then none
    else (b.producers p).map (b.produce p)
  | .pop a =>
    match b.consumer with
    | none => some { b with consumer := some a.enter }
    | some _ => none
  | .consume => b.consumer.map b.consume
  | .halt p => some { b with halted := Function.update b.halted p true }

/-- The queue and where every party stands. -/
structure Parties where
  queue : SharedQueueLayout
  producers : ℕ → Option PushPc
  halted : ℕ → Bool
  consumer : Option PopPc

def ByteSystem.parties (b : ByteSystem) : Parties :=
  ⟨.ofBytes b.memory, b.producers, b.halted, b.consumer⟩

def System.parties (s : System) : Parties := ⟨s.queue, s.producers, s.halted, s.consumer⟩

/-! ## 5. Bytes and layout, step by step -/

section Steps

variable (m : ℕ → UInt8)

/-- A 32-bit word compared as a number. -/
theorem word_iff {f : Field} (hf : fieldWidth f = 4) (c : UInt32) :
    record.word m f = c.toNat ↔ UInt32.ofNat (record.word m f) = c := by
  have hlt : record.word m f < 256 ^ fieldWidth f := record.word_lt m f
  rw [hf] at hlt
  rw [← UInt32.toNat_inj, UInt32.toNat_ofNat_of_lt' hlt]

theorem state_iff (i : Fin queueCapacity) (c : UInt32) :
    record.word m (.state i) = c.toNat ↔ ((SharedQueueLayout.ofBytes m).slots i).state = c :=
  word_iff m rfl c

/-- The check of a process that maps the memory is the check of the layout. -/
theorem validBytes_eq : validBytes m = isQueueValid (.ofBytes m) := by
  have hmagic : record.word m .magic = protocolMagic.toNat ↔
      (SharedQueueLayout.ofBytes m).queueMeta.magic = protocolMagic := word_iff m rfl _
  have hversion : record.word m .version = protocolVersion.toNat ↔
      (SharedQueueLayout.ofBytes m).queueMeta.version = protocolVersion := word_iff m rfl _
  have hcapacity : record.word m .capacity = queueCapacity ↔
      (SharedQueueLayout.ofBytes m).queueMeta.capacity = UInt32.ofNat queueCapacity :=
    word_iff m rfl (UInt32.ofNat queueCapacity)
  have hsize : record.word m .maxPayloadSize = maxPayloadSize ↔
      (SharedQueueLayout.ofBytes m).queueMeta.maxPayloadSize = UInt32.ofNat maxPayloadSize :=
    word_iff m rfl (UInt32.ofNat maxPayloadSize)
  simp only [validBytes, isQueueValid, ne_eq, hmagic, hversion, hcapacity, hsize]

theorem putInit_ofBytes (f : InitWrite) :
    SharedQueueLayout.ofBytes (record.put m f f.value) = f.apply (.ofBytes m) := by
  have hhead : f.slot = none → MessageSlot.ofWords (Function.update (record.word m) f f.value) =
      .ofWords (record.word m) :=
    fun h => funext fun j => slotWords_update fun e => by rw [h] at e; cases e
  cases f with
  | state i => exact putState_ofBytes m i _
  | type i => exact putType_ofBytes m i _
  | length i => exact putLength_ofBytes m i 0
  | byte i k => exact putByte_ofBytes m i k 0
  | writeIndex => exact putWriteIndex_ofBytes m 0
  | readIndex => exact putReadIndex_ofBytes m 0
  | magic | version | capacity | maxPayloadSize =>
      rw [ofBytes_put m (by decide)]
      simp only [SharedQueueLayout.ofBytes, SharedQueueLayout.ofWords, hhead rfl, InitWrite.apply]
      simp [QueueMeta.ofWords, InitWrite.value]

theorem initBytes_ofBytes :
    SharedQueueLayout.ofBytes (initBytes m) = initQueue (.ofBytes m) := by
  rw [← init_all, initBytes]
  exact (List.foldl_hom SharedQueueLayout.ofBytes fun m f => (putInit_ofBytes m f).symm).symm

theorem bytePush_ofBytes (pc : PushPc) :
    SharedQueueLayout.ofBytes (bytePush m pc).1 = (pushStep (.ofBytes m) pc).1 ∧
      (bytePush m pc).2 = (pushStep (.ofBytes m) pc).2 := by
  cases pc with
  | fetchAdd job => exact ⟨putWriteIndex_ofBytes m _, rfl⟩
  | compareExchange job index =>
      simp only [bytePush, pushStep, state_iff]
      split
      · exact ⟨putState_ofBytes m _ _, rfl⟩
      · exact ⟨rfl, rfl⟩
  | putType job i => exact ⟨putType_ofBytes m i _, rfl⟩
  | putLength job i => exact ⟨putLength_ofBytes m i _, rfl⟩
  | copyByte job i k =>
      simp only [bytePush, pushStep]
      split
      · exact ⟨putByte_ofBytes m i _ _, rfl⟩
      · exact ⟨putState_ofBytes m i _, rfl⟩
  | done pushed => exact ⟨rfl, rfl⟩

theorem bytePop_ofBytes (pc : PopPc) :
    SharedQueueLayout.ofBytes (bytePop m pc).1 = (popStep (.ofBytes m) pc).1 ∧
      (bytePop m pc).2 = (popStep (.ofBytes m) pc).2 := by
  cases pc with
  | loadState job index =>
      simp only [bytePop, popStep, state_iff]
      split <;> exact ⟨rfl, rfl⟩
  | loadLength job index type => exact ⟨rfl, rfl⟩
  | copyByte job index h k =>
      simp only [bytePop, popStep]
      split <;> exact ⟨rfl, rfl⟩
  | clearType job index h => exact ⟨putType_ofBytes m _ _, rfl⟩
  | clearLength job index h => exact ⟨putLength_ofBytes m _ 0, rfl⟩
  | clearByte job index h k =>
      simp only [bytePop, popStep]
      split
      · exact ⟨putByte_ofBytes m _ _ 0, rfl⟩
      · exact ⟨putState_ofBytes m _ _, rfl⟩
  | storeIndex job index h => exact ⟨putReadIndex_ofBytes m _, rfl⟩
  | loadIndex job | loadType job index | done job popped => exact ⟨rfl, rfl⟩

theorem initBytes_beyond {a : ℕ} (h : queueMemorySize ≤ a) : initBytes m a = m a := by
  have hfold : ∀ (fs : List InitWrite) (m : ℕ → UInt8),
      fs.foldl (fun m f => record.put m f f.value) m a = m a := fun fs => by
    induction fs with
    | nil => exact fun _ => rfl
    | cons f fs ih => exact fun m => (ih _).trans (record.put_of_le m _ h)
  exact hfold initWrites m

/-- A push stays inside the layout. -/
theorem bytePush_beyond (pc : PushPc) {a : ℕ} (h : queueMemorySize ≤ a) :
    (bytePush m pc).1 a = m a := by
  have hput : ∀ f v, record.put m f v a = m a := fun f v => record.put_of_le m v h
  cases pc with
  | fetchAdd job => exact hput ..
  | compareExchange job index =>
      simp only [bytePush]
      split
      · exact hput ..
      · rfl
  | putType job i | putLength job i => exact hput ..
  | copyByte job i k =>
      simp only [bytePush]
      split <;> exact hput ..
  | done pushed => rfl

/-- A pop stays inside the layout. -/
theorem bytePop_beyond (pc : PopPc) {a : ℕ} (h : queueMemorySize ≤ a) :
    (bytePop m pc).1 a = m a := by
  have hput : ∀ f v, record.put m f v a = m a := fun f v => record.put_of_le m v h
  cases pc with
  | loadState job index | copyByte job index hd k =>
      simp only [bytePop]
      split <;> rfl
  | clearType job index hd | clearLength job index hd | storeIndex job index hd => exact hput ..
  | clearByte job index hd k =>
      simp only [bytePop]
      split <;> exact hput ..
  | loadIndex job | loadType job index | loadLength job index type | done job popped => rfl

end Steps

/-! ## 6. Runs -/

theorem byteStep_parties (b : ByteSystem) (s : System) (a : Action) (h : b.parties = s.parties) :
    (b.step a).map ByteSystem.parties = (s.step a).map System.parties := by
  obtain ⟨hq, hp, hh, hc⟩ := Parties.mk.inj h
  cases a with
  | push p args =>
      simp only [ByteSystem.step, System.step, hp, hh]
      split
      · rfl
      · cases s.producers p with
        | none => simp [ByteSystem.parties, System.parties, System.callPush, hq, hc]
        | some pc => rfl
  | produce p =>
      simp only [ByteSystem.step, System.step, hp, hh]
      split
      · rfl
      · cases s.producers p with
        | none => rfl
        | some pc =>
            obtain ⟨hqueue, hpc⟩ := bytePush_ofBytes b.memory pc
            simp [ByteSystem.parties, System.parties, ByteSystem.produce, System.produce, hqueue,
              hpc, hq, hp, hh, hc]
  | pop args =>
      simp only [ByteSystem.step, System.step, hc]
      cases s.consumer with
      | none => simp [ByteSystem.parties, System.parties, System.callPop, hq, hp, hh]
      | some pc => rfl
  | consume =>
      simp only [ByteSystem.step, System.step, hc]
      cases s.consumer with
      | none => rfl
      | some pc =>
          obtain ⟨hqueue, hpc⟩ := bytePop_ofBytes b.memory pc
          simp [ByteSystem.parties, System.parties, ByteSystem.consume, System.consume, hqueue,
            hpc, hq, hp, hh]
  | halt p => simp [ByteSystem.step, System.step, ByteSystem.parties, System.parties, System.halt,
      hq, hp, hh, hc]

theorem byteStep_beyond {b b' : ByteSystem} {a : Action} (h : b.step a = some b') {x : ℕ}
    (hx : queueMemorySize ≤ x) : b'.memory x = b.memory x := by
  cases a with
  | push p args =>
      simp only [ByteSystem.step] at h
      split at h
      · cases h
      · split at h <;> cases h
        rfl
  | produce p =>
      simp only [ByteSystem.step] at h
      split at h
      · cases h
      · obtain ⟨pc, -, rfl⟩ := Option.map_eq_some_iff.mp h
        exact bytePush_beyond b.memory pc hx
  | pop args =>
      simp only [ByteSystem.step] at h
      split at h <;> cases h
      rfl
  | consume =>
      obtain ⟨pc, -, rfl⟩ := Option.map_eq_some_iff.mp h
      exact bytePop_beyond b.memory pc hx
  | halt p => cases h; rfl

theorem pushStep_queueMeta (q : SharedQueueLayout) (pc : PushPc) :
    (pushStep q pc).1.queueMeta = q.queueMeta := by
  cases pc with
  | compareExchange job index => simp only [pushStep]; split <;> rfl
  | copyByte job i k => simp only [pushStep]; split <;> rfl
  | _ => rfl

theorem PopEffect.queueMeta {q q' : SharedQueueLayout} {pc : PopPc} (h : PopEffect q pc q') :
    q'.queueMeta = q.queueMeta := by
  cases h <;> rfl

/-- Nobody touches what `is_queue_valid` looks at. -/
theorem valid_reach {memory : SharedQueueLayout} {s : System}
    (h : Reach System.step (.start memory) s) : isQueueValid s.queue = true := by
  refine h.invariant (I := fun s => isQueueValid s.queue = true) (isQueueValid_initQueue memory)
    fun s a s' hI _ hs => ?_
  rw [isQueueValid_iff] at hI ⊢
  rcases step_cases hs with ⟨p, args, -, -, -, rfl⟩ | ⟨p, pc, -, -, -, rfl⟩ | ⟨args, -, -, rfl⟩ |
    ⟨pc, -, -, rfl⟩ | ⟨p, -, rfl⟩
  · exact hI
  · exact (pushStep_queueMeta _ _).trans hI
  · exact hI
  · exact (popStep_effect _ _).queueMeta.trans hI
  · exact hI

/-- **The queue on bytes.** Whatever bytes `init_queue` finds, a schedule of any number of producers
    and the consumer is possible on the bytes exactly when it is possible on the layout; then every
    party stands at the same place, and the bytes read as the queue. A process that maps the bytes
    in between finds them valid, and no byte behind the `get_queue_memory_size()` bytes of the
    layout is written. -/
theorem bytes_refine (bytes : ℕ → UInt8) (as : List Action) :
    (run ByteSystem.step (.start bytes) as).map ByteSystem.parties =
      (run System.step (.start (.ofBytes bytes)) as).map System.parties ∧
    ∀ b, run ByteSystem.step (.start bytes) as = some b →
      validBytes b.memory = true ∧ ∀ a, queueMemorySize ≤ a → b.memory a = bytes a := by
  have hparties : (run ByteSystem.step (.start bytes) as).map ByteSystem.parties =
      (run System.step (.start (.ofBytes bytes)) as).map System.parties := by
    refine run_view byteStep_parties as ?_
    simp only [ByteSystem.parties, ByteSystem.start, System.parties, System.start,
      initBytes_ofBytes]
  refine ⟨hparties, fun b hb => ⟨?_, fun a ha => ?_⟩⟩
  · rw [hb, Option.map_some] at hparties
    obtain ⟨s, hs, hview⟩ := Option.map_eq_some_iff.mp hparties.symm
    have hqueue : s.queue = .ofBytes b.memory := congrArg Parties.queue hview
    rw [validBytes_eq, ← hqueue]
    exact valid_reach (reach_run hs)
  · have hstart : (ByteSystem.start bytes).memory a = bytes a := by
      simp only [ByteSystem.start, initBytes_beyond bytes ha]
    exact (reach_run hb).invariant (I := fun b => b.memory a = bytes a) hstart
      fun _ _ _ hI _ hs => (byteStep_beyond hs ha).trans hI

end HseMultithreading.Hw4
