/-
  File:      HseMultithreading/Hw4/Region.lean
  Subject:   THE SET-UP OF THE SHARED MEMORY (`hw4/shm_utils.cpp`): what a failed call leaves
             behind, for every outcome of every system call in it.

  `create_or_open_shared_memory` creates with `O_EXCL`, so it knows whether the name is its own and
  unlinks it on every failure after that. `create_shared_memory` opens with `O_CREAT` alone and
  never unlinks: when `ftruncate` or `mmap` fails it leaves a new name behind, or an object of
  somebody else with a new size.

  * `createSharedMemory`, `openSharedMemory`, `createOrOpenSharedMemory`, `closeSharedMemory` -- the
    functions of the source over the system of `Lib/Posix.lean`; the parts that the first three have
    in common are `mapRegion` and `sizeAndMap`.
  * `Acquired` -- one descriptor and one mapping more, both recorded in the region;
    `Acquired.released` -- closing the region takes exactly these away.
  * **`setup_failures`** -- the exact law for all three.
  * `create_leaves_object` -- a name of size 0 left behind, and a size changed.
-/
import HseMultithreading.Lib.Posix

namespace HseMultithreading.Hw4

open Posix

/-! ## 1. The functions -/

/-- A null `addr` is 0. -/
structure SharedMemoryRegion where
  fd : ℤ
  addr : ℕ
  size : UInt64
  deriving DecidableEq

/-- The default member initialisers. -/
def SharedMemoryRegion.unset : SharedMemoryRegion := ⟨-1, 0, 0⟩

/-- What the kernel has in store for the system calls of one call: the first `shm_open`, the second
    one if there is one, `ftruncate` and `mmap`. -/
structure Outcomes where
  shmOpen : Except Errno ℕ
  shmReopen : Except Errno ℕ
  ftruncate : Bool
  mmap : Option ℕ

/-- The system after a call, `*region` and the value returned. -/
structure SetupResult where
  os : OS
  region : Option SharedMemoryRegion
  returned : Bool

/-- `static_cast<off_t>(size)`. -/
def offT (size : UInt64) : ℤ := size.toInt64.toInt

/-- The last part of all three functions: map the object and record it, or close the descriptor and
    undo what else there is to undo. -/
def mapRegion (os : OS) (fd : ℕ) (size : UInt64) (region : Option SharedMemoryRegion)
    (outcome : Option ℕ) (undo : OS → OS) : SetupResult :=
  match os.mmap size.toNat fd outcome with
  | (os, none) => ⟨undo (os.close fd), region, false⟩
  | (os, some addr) => ⟨os, some ⟨fd, addr, size⟩, true⟩

/-- The part of the two functions that create, from the descriptor on. -/
def sizeAndMap (os : OS) (fd : ℕ) (size : UInt64) (region : Option SharedMemoryRegion)
    (o : Outcomes) (undo : OS → OS) : SetupResult :=
  match os.ftruncate fd (offT size) o.ftruncate with
  | (os, false) => ⟨undo (os.close fd), region, false⟩
  | (os, true) => mapRegion os fd size region o.mmap undo

/-- `create_shared_memory`. -/
def createSharedMemory (os : OS) (name : Option String) (size : UInt64)
    (region : Option SharedMemoryRegion) (o : Outcomes) : SetupResult :=
  match name, region with
  | some name, some _ =>
    if size = 0 then ⟨os, region, false⟩
    else
      match os.shmOpen name ⟨true, false⟩ o.shmOpen with
      | (os, .error _) => ⟨os, region, false⟩
      | (os, .ok fd) => sizeAndMap os fd size region o id
  | _, _ => ⟨os, region, false⟩

/-- `open_shared_memory`. -/
def openSharedMemory (os : OS) (name : Option String) (size : UInt64)
    (region : Option SharedMemoryRegion) (o : Outcomes) : SetupResult :=
  match name, region with
  | some name, some _ =>
    if size = 0 then ⟨os, region, false⟩
    else
      match os.shmOpen name ⟨false, false⟩ o.shmOpen with
      | (os, .error _) => ⟨os, region, false⟩
      | (os, .ok fd) => mapRegion os fd size region o.mmap id
  | _, _ => ⟨os, region, false⟩

/-- `*was_created` is written when everything else has succeeded. -/
def SetupResult.note (r : SetupResult) (wasCreated : Option Bool) (createdNow : Bool) :
    SetupResult × Option Bool :=
  (r, if r.returned then some createdNow else wasCreated)

/-- `create_or_open_shared_memory`. -/
def createOrOpenSharedMemory (os : OS) (name : Option String) (size : UInt64)
    (region : Option SharedMemoryRegion) (wasCreated : Option Bool) (o : Outcomes) :
    SetupResult × Option Bool :=
  match name, region, wasCreated with
  | some name, some _, some _ =>
    if size = 0 then (⟨os, region, false⟩, wasCreated)
    else
      match os.shmOpen name ⟨true, true⟩ o.shmOpen with
      | (os, .ok fd) =>
        (sizeAndMap os fd size region o (·.shmUnlink name)).note wasCreated true
      | (os, .error e) =>
        if e ≠ .eexist then (⟨os, region, false⟩, wasCreated)
        else
          match os.shmOpen name ⟨false, false⟩ o.shmReopen with
          | (os, .error _) => (⟨os, region, false⟩, wasCreated)
          | (os, .ok fd) => (mapRegion os fd size region o.mmap id).note wasCreated false
  | _, _, _ => (⟨os, region, false⟩, wasCreated)

/-- `close_shared_memory`. -/
def closeSharedMemory (os : OS) (region : Option SharedMemoryRegion) :
    OS × Option SharedMemoryRegion :=
  match region with
  | none => (os, none)
  | some r =>
    let os := if r.addr ≠ 0 ∧ 0 < r.size then os.munmap r.addr r.size.toNat else os
    let os := if 0 ≤ r.fd then os.close r.fd else os
    (os, some .unset)

/-! ## 2. Success -/

/-- **One descriptor and one mapping of the requested size more**, both new and both recorded. -/
structure Acquired (os : OS) (size : UInt64) (r : SetupResult) (fd : ℕ) (m : Mapping) : Prop where
  newFd : os.descriptors fd = none
  newAddr : ∀ m' ∈ os.mappings, m'.Avoids m.addr m.size
  addr : m.addr ≠ 0
  requested : m.size = size.toNat
  descriptors : r.os.descriptors = Function.update os.descriptors fd (some m.object)
  mappings : r.os.mappings = m :: os.mappings
  region : r.region = some ⟨fd, m.addr, size⟩

/-- **A following `close_shared_memory`** gives back the descriptor and the mapping and nothing
    else, resets the region, and a second one changes nothing. -/
def Released (os : OS) (r : SetupResult) : Prop :=
  (closeSharedMemory r.os r.region).1.view =
      { r.os.view with descriptors := os.descriptors, mappings := os.mappings } ∧
    (closeSharedMemory r.os r.region).2 = some .unset ∧
    closeSharedMemory (closeSharedMemory r.os r.region).1 (closeSharedMemory r.os r.region).2 =
      closeSharedMemory r.os r.region

theorem close_unset (os : OS) : closeSharedMemory os (some .unset) = (os, some .unset) := rfl

section Success

variable {os : OS} {size : UInt64} {r : SetupResult} {fd : ℕ} {m : Mapping}

theorem Acquired.released (h : Acquired os size r fd m) : Released os r := by
  have hpos : 0 < size := UInt64.lt_iff_toNat_lt.mpr (h.requested ▸ m.pos)
  have hclose : closeSharedMemory r.os r.region =
      ((r.os.munmap m.addr m.size).close fd, some .unset) := by
    simp only [h.region, closeSharedMemory, h.requested, ne_eq, h.addr, not_false_eq_true, hpos,
      and_self, if_true, Int.natCast_nonneg]
  unfold Released
  rw [hclose]
  refine ⟨View.ext rfl ?_ ?_, rfl, close_unset _⟩
  · show Function.update r.os.descriptors fd none = os.descriptors
    rw [h.descriptors, descriptors_closed h.newFd]
  · show r.os.mappings.flatMap _ = os.mappings
    rw [h.mappings, mappings_unmapped h.newAddr]

end Success

/-! ## 3. How a call ends -/

/-- **A call ends** with the shared memory acquired, or with a system of which `P` holds, `*region`
    as it was and `false`. -/
inductive Ended (os : OS) (size : UInt64) (region : Option SharedMemoryRegion) (P : OS → Prop) :
    SetupResult → Prop where
  | acquired (r : SetupResult) (fd : ℕ) (m : Mapping) (ht : r.returned = true)
      (h : Acquired os size r fd m) : Ended os size region P r
  | failed (os' : OS) (h : P os') : Ended os size region P ⟨os', region, false⟩

section Ends

variable {os os' : OS} {size : UInt64} {region : Option SharedMemoryRegion} {P : OS → Prop}
  {r : SetupResult}

theorem Ended.failure (h : Ended os size region P r) (hf : r.returned = false) :
    P r.os ∧ r.region = region := by
  cases h with
  | acquired _ fd m ht _ => rw [ht] at hf; cases hf
  | failed os' hP => exact ⟨hP, rfl⟩

theorem Ended.success (h : Ended os size region P r) (ht : r.returned = true) :
    (∃ fd m, Acquired os size r fd m) ∧ Released os r := by
  cases h with
  | acquired _ fd m _ hacq => exact ⟨⟨fd, m, hacq⟩, hacq.released⟩
  | failed os' _ => cases ht

/-- **The last part**, with a new descriptor in hand. -/
theorem mapRegion_ended {fd object : ℕ} {outcome : Option ℕ} {undo : OS → OS}
    (hfree : os.descriptors fd = none)
    (hdescriptors : os'.descriptors = Function.update os.descriptors fd (some object))
    (hmappings : os'.mappings = os.mappings) (hP : P (undo (os'.close fd))) :
    Ended os size region P (mapRegion os' fd size region outcome undo) := by
  have hfd : os'.descriptors fd = some object := by rw [hdescriptors, Function.update_self]
  unfold mapRegion
  split
  next os'' hmap =>
    rw [mmap_none hmap]
    exact .failed _ hP
  next os'' addr hmap =>
    obtain ⟨haddr, havoids, hpos, rfl⟩ := mmap_some hfd hmap
    refine .acquired _ fd ⟨object, 0, addr, size.toNat, hpos⟩ rfl
      ⟨hfree, ?_, haddr, rfl, hdescriptors, ?_, rfl⟩
    · rw [← hmappings]
      exact havoids
    · rw [← hmappings]
      rfl

/-- **From the descriptor on**, for the two functions that create: the object gets its size or does
    not. -/
theorem sizeAndMap_ended {fd object : ℕ} {o : Outcomes} {undo : OS → OS}
    (hfree : os.descriptors fd = none)
    (hdescriptors : os'.descriptors = Function.update os.descriptors fd (some object))
    (hmappings : os'.mappings = os.mappings)
    (hrefused : ¬ (o.ftruncate = true ∧ 0 ≤ offT size) → P (undo (os'.close fd)))
    (hsized : o.ftruncate = true ∧ 0 ≤ offT size →
      P (undo ((os'.resize object (offT size).toNat).close fd))) :
    Ended os size region P (sizeAndMap os' fd size region o undo) := by
  have hfd : os'.descriptors fd = some object := by rw [hdescriptors, Function.update_self]
  unfold sizeAndMap
  rw [ftruncate_eq hfd]
  by_cases htruncates : o.ftruncate = true ∧ 0 ≤ offT size
  · rw [if_pos htruncates]
    exact mapRegion_ended hfree hdescriptors hmappings (hsized htruncates)
  · rw [if_neg htruncates]
    exact .failed _ (hrefused htruncates)

end Ends

/-! ## 4. The three functions -/

/-- **When a failed `create_shared_memory` leaves something behind**: it has got a descriptor, and
    the name is new, or its object has got another size. -/
def CreateLeaves (os : OS) (name : String) (size : UInt64) (o : Outcomes) : Prop :=
  (∃ fd, (os.shmOpen name ⟨true, false⟩ o.shmOpen).2 = .ok fd) ∧
    (os.names name = none ∨
      (o.ftruncate = true ∧ 0 ≤ offT size) ∧
        ∃ object, os.names name = some object ∧ os.sizes object ≠ (offT size).toNat)

section Functions

variable (os : OS) (name : Option String) (size : UInt64) (region : Option SharedMemoryRegion)
  (wasCreated : Option Bool) (o : Outcomes)

theorem openSharedMemory_ended :
    Ended os size region (· = os) (openSharedMemory os name size region o) := by
  unfold openSharedMemory
  split
  next name _ =>
    split
    · exact .failed _ rfl
    · split
      next hopen => exact .failed _ (shmOpen_error hopen)
      next fd hopen =>
        obtain ⟨hfree, ⟨object, -, -, rfl⟩ | ⟨-, hcreat, -⟩⟩ := shmOpen_ok hopen
        · exact mapRegion_ended hfree rfl rfl (close_install hfree)
        · cases hcreat
  · exact .failed _ rfl

/-- What a failed call leaves of an object that had the name before. -/
theorem createLeaves_iff {os : OS} {name : String} {size : UInt64} {o : Outcomes} {fd object : ℕ}
    (hopen : (os.shmOpen name ⟨true, false⟩ o.shmOpen).2 = .ok fd)
    (hname : os.names name = some object) :
    CreateLeaves os name size o ↔
      (o.ftruncate = true ∧ 0 ≤ offT size) ∧ os.sizes object ≠ (offT size).toNat := by
  refine ⟨?_, fun ⟨htruncates, hne⟩ => ⟨⟨fd, hopen⟩, .inr ⟨htruncates, object, hname, hne⟩⟩⟩
  rintro ⟨-, hnone | ⟨htruncates, object', hname', hne⟩⟩
  · rw [hname] at hnone
    cases hnone
  · obtain rfl := Option.some.inj (hname.symm.trans hname')
    exact ⟨htruncates, hne⟩

/-- **`create_shared_memory` from the descriptor on.** -/
theorem create_opened_ended {os os' : OS} {name : String} {fd : ℕ}
    (hopen : os.shmOpen name ⟨true, false⟩ o.shmOpen = (os', .ok fd)) :
    Ended os size region (fun os' => os'.view = os.view ↔ ¬ CreateLeaves os name size o)
      (sizeAndMap os' fd size region o id) := by
  have hfd : (os.shmOpen name ⟨true, false⟩ o.shmOpen).2 = .ok fd := by rw [hopen]
  obtain ⟨hfree, ⟨object, hname, -, rfl⟩ | ⟨hname, -, rfl⟩⟩ := shmOpen_ok hopen
  · refine sizeAndMap_ended hfree rfl rfl (fun hrefused => ?_) (fun hsized => ?_)
    · rw [createLeaves_iff hfd hname, id, close_install hfree]
      exact iff_of_true rfl fun h => hrefused h.1
    · have hclosed : ((os.install fd object).resize object (offT size).toNat).close fd =
          os.resize object (offT size).toNat :=
        close_install (show (os.resize object _).descriptors fd = none from hfree)
      rw [createLeaves_iff hfd hname, and_iff_right hsized, not_ne_iff, id, hclosed,
        view_resize_iff hname]
  · -- the name is new, and nobody takes it away
    have hseen : ∀ os' : OS, os'.names = (os.create name).names →
        (os'.view = os.view ↔ ¬ CreateLeaves os name size o) := by
      intro os' hnames
      refine iff_of_false (view_create_ne hname ?_) (not_not_intro ⟨⟨fd, hfd⟩, .inl hname⟩)
      rw [hnames]
      show Function.update os.names name (some os.created) name ≠ none
      rw [Function.update_self]
      nofun
    exact sizeAndMap_ended hfree rfl rfl (fun _ => hseen _ rfl) (fun _ => hseen _ rfl)

theorem createSharedMemory_ended :
    Ended os size region
      (fun os' => os'.view = os.view ↔
        ¬ ∃ name', name = some name' ∧ region ≠ none ∧ size ≠ 0 ∧ CreateLeaves os name' size o)
      (createSharedMemory os name size region o) := by
  unfold createSharedMemory
  split
  next name r =>
    split
    next hsize => exact .failed _ (iff_of_true rfl fun ⟨_, _, _, hne, _⟩ => hne hsize)
    next hsize =>
      have hiff : (∃ name', some name = some name' ∧ some r ≠ none ∧ size ≠ 0 ∧
          CreateLeaves os name' size o) ↔ CreateLeaves os name size o := by
        refine ⟨?_, fun h => ⟨name, rfl, nofun, hsize, h⟩⟩
        rintro ⟨name', hname, -, -, h⟩
        exact Option.some.inj hname ▸ h
      rw [hiff]
      split
      next os' e hopen =>
        refine .failed _ (iff_of_true (by rw [shmOpen_error hopen]) ?_)
        rintro ⟨⟨fd, hfd⟩, -⟩
        rw [hopen] at hfd
        cases hfd
      next os' fd hopen => exact create_opened_ended size _ o hopen
  next hnull =>
    refine .failed _ (iff_of_true rfl ?_)
    rintro ⟨name', rfl, hregion, -⟩
    obtain ⟨r, rfl⟩ := Option.ne_none_iff_exists'.mp hregion
    exact hnull name' r rfl rfl

/-- **`create_or_open_shared_memory`**: on failure nothing has changed, and `*was_created` says
    whether the name was free. -/
theorem createOrOpenSharedMemory_ended :
    Ended os size region (fun os' => os'.view = os.view)
        (createOrOpenSharedMemory os name size region wasCreated o).1 ∧
      (createOrOpenSharedMemory os name size region wasCreated o).2 =
        if (createOrOpenSharedMemory os name size region wasCreated o).1.returned
        then some (name.bind os.names).isNone else wasCreated := by
  unfold createOrOpenSharedMemory
  split
  next name r w =>
    split
    · exact ⟨.failed _ rfl, rfl⟩
    · split
      next os' fd hopen =>
        -- with `O_EXCL` a descriptor means that the name was free
        obtain ⟨hfree, ⟨object, -, hexcl, -⟩ | ⟨hname, -, rfl⟩⟩ := shmOpen_ok hopen
        · cases hexcl
        simp only [SetupResult.note, Option.bind_some, hname, Option.isNone_none, and_true]
        refine sizeAndMap_ended hfree rfl rfl (fun _ => ?_) (fun _ => ?_)
        · refine view_unlink hname rfl (fun object h => ?_) (descriptors_closed hfree) rfl
          exact Function.update_of_ne (Nat.ne_of_lt h) _ _
        · refine view_unlink hname rfl (fun object h => ?_) (descriptors_closed hfree) rfl
          have hne := Nat.ne_of_lt h
          exact (Function.update_of_ne hne _ _).trans (Function.update_of_ne hne _ _)
      next os' e hopen =>
        obtain rfl := shmOpen_error hopen
        split
        · exact ⟨.failed _ rfl, rfl⟩
        · split
          next os'' e' hagain =>
            obtain rfl := shmOpen_error hagain
            exact ⟨.failed _ rfl, rfl⟩
          next os'' fd hagain =>
            obtain ⟨hfree, ⟨object, hname, -, rfl⟩ | ⟨-, hcreat, -⟩⟩ := shmOpen_ok hagain
            · simp only [SetupResult.note, Option.bind_some, hname, Option.isNone_some, and_true]
              exact mapRegion_ended hfree rfl rfl (by rw [id, close_install hfree])
            · cases hcreat
  · exact ⟨.failed _ rfl, rfl⟩

end Functions

/-! ## 5. What failure leaves and success adds -/

/-- **The set-up of the shared memory, for every outcome of every system call.** A failed
    `open_shared_memory` or `create_or_open_shared_memory` leaves everything as it was; a failed
    `create_shared_memory` does so exactly unless `CreateLeaves`. A call of either of the three that
    succeeds has added one descriptor and one mapping of the requested size, both in the region, and
    closing the region takes exactly these away. -/
theorem setup_failures (os : OS) (name : Option String) (size : UInt64)
    (region : Option SharedMemoryRegion) (wasCreated : Option Bool) (o : Outcomes) :
    ((createSharedMemory os name size region o).returned = false →
      (createSharedMemory os name size region o).region = region ∧
      ((createSharedMemory os name size region o).os.view = os.view ↔
        ¬ ∃ name', name = some name' ∧ region ≠ none ∧ size ≠ 0 ∧
          CreateLeaves os name' size o)) ∧
    ((openSharedMemory os name size region o).returned = false →
      (openSharedMemory os name size region o).region = region ∧
      (openSharedMemory os name size region o).os.view = os.view) ∧
    ((createOrOpenSharedMemory os name size region wasCreated o).1.returned = false →
      (createOrOpenSharedMemory os name size region wasCreated o).1.region = region ∧
      (createOrOpenSharedMemory os name size region wasCreated o).1.os.view = os.view ∧
      (createOrOpenSharedMemory os name size region wasCreated o).2 = wasCreated) ∧
    ∀ r, r = createSharedMemory os name size region o ∨ r = openSharedMemory os name size region o ∨
        r = (createOrOpenSharedMemory os name size region wasCreated o).1 →
      r.returned = true → (∃ fd m, Acquired os size r fd m) ∧ Released os r := by
  have hcreate := createSharedMemory_ended os name size region o
  have hopen := openSharedMemory_ended os name size region o
  obtain ⟨hboth, hcreated⟩ := createOrOpenSharedMemory_ended os name size region wasCreated o
  refine ⟨fun hf => (hcreate.failure hf).symm, fun hf => ?_, fun hf => ?_, fun r hr ht => ?_⟩
  · obtain ⟨hos, hregion⟩ := hopen.failure hf
    exact ⟨hregion, by rw [hos]⟩
  · obtain ⟨hos, hregion⟩ := hboth.failure hf
    refine ⟨hregion, hos, ?_⟩
    rw [hcreated, hf]
    rfl
  · rcases hr with rfl | rfl | rfl
    · exact hcreate.success ht
    · exact hopen.success ht
    · exact hboth.success ht

/-- **A failed `create_shared_memory` leaves an object of size 0 under the name**, which
    `open_shared_memory` then opens; and it can leave the object of somebody else with another
    size. -/
theorem create_leaves_object :
    (∃ r, r = createSharedMemory .empty (some "/hw4_queue") 4096 (some .unset)
        ⟨.ok 3, .ok 3, false, none⟩ ∧
      r.returned = false ∧ OS.empty.view.table "/hw4_queue" = none ∧
      r.os.view.table "/hw4_queue" = some (0, 0) ∧
      (openSharedMemory r.os (some "/hw4_queue") 4096 (some .unset)
        ⟨.ok 3, .ok 3, true, some 8192⟩).returned = true) ∧
    ∃ r, r = createSharedMemory ((OS.empty.create "/hw4_queue").resize 0 64) (some "/hw4_queue")
        4096 (some .unset) ⟨.ok 3, .ok 3, true, none⟩ ∧
      r.returned = false ∧
      ((OS.empty.create "/hw4_queue").resize 0 64).view.table "/hw4_queue" = some (0, 64) ∧
      r.os.view.table "/hw4_queue" = some (0, 4096) :=
  ⟨⟨_, rfl, by decide, by decide, by decide, by decide⟩, _, rfl, by decide, by decide, by decide⟩

end HseMultithreading.Hw4
