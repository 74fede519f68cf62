/-
  File:      HseMultithreading/Hw4/Provision.lean
  Subject:   WHAT A SUCCESSFUL SET-UP PROVIDES (`hw4/shm_utils.cpp`): which object the region leads
             to, and when the set-up succeeds.

  * `Provides` -- a descriptor and a mapping of one object, and the names and sizes that go with it.
  * `openSharedMemory_provides`, `createOrOpen_provides` -- the object of the name, or a new one of
    the size asked for under a name that was free.
  * `Outcomes.Available` -- the kernel has what the calls need; then the set-up succeeds
    (`createOrOpen_returned`, `openSharedMemory_returned`).
-/
import Mathlib.Algebra.Group.Int.Defs
import Mathlib.Algebra.Group.Nat.Defs
import HseMultithreading.Hw4.Region

namespace HseMultithreading.Hw4

open Posix

/-! ## 1. The object of a region -/

section Provided

variable {os os' : OS} {name : String} {size : UInt64} {region : Option SharedMemoryRegion}
  {o : Outcomes} {fd object : ℕ}

theorem offT_eq (size : UInt64) :
    offT size = if 2 * size.toNat < 2 ^ 64 then (size.toNat : ℤ) else size.toNat - 2 ^ 64 :=
  BitVec.toInt_eq_toNat_cond size.toBitVec

theorem offT_toNat (h : 0 ≤ offT size) : (offT size).toNat = size.toNat := by
  have hlt := size.toNat_lt
  rw [offT_eq] at h ⊢
  split at h
  next hlow => rw [if_pos hlow, Int.toNat_natCast]
  next => omega

/-- **The shared memory a call returns**: a descriptor and a mapping of `object`, with the names and
    the sizes of `os'`. -/
structure Provides (os os' : OS) (size : UInt64) (object : ℕ) (r : SetupResult) : Prop where
  acquired : ∃ fd m, m.object = object ∧ Acquired os size r fd m
  names : r.os.names = os'.names
  sizes : r.os.sizes = os'.sizes

/-- The last part, with a descriptor of the object in hand. -/
theorem mapRegion_provides {outcome : Option ℕ} {undo : OS → OS}
    (hfree : os.descriptors fd = none)
    (hdescriptors : os'.descriptors = Function.update os.descriptors fd (some object))
    (hmappings : os'.mappings = os.mappings) :
    (mapRegion os' fd size region outcome undo).returned = true →
      Provides os os' size object (mapRegion os' fd size region outcome undo) := by
  have hfd : os'.descriptors fd = some object := by rw [hdescriptors, Function.update_self]
  unfold mapRegion
  split
  next => exact fun h => by cases h
  next os'' addr hmap =>
    obtain ⟨haddr, havoids, hpos, rfl⟩ := mmap_some hfd hmap
    refine fun _ => ⟨⟨fd, ⟨object, 0, addr, size.toNat, hpos⟩, rfl, hfree, ?_, haddr, rfl,
      hdescriptors, ?_, rfl⟩, rfl, rfl⟩
    · rw [← hmappings]
      exact havoids
    · rw [← hmappings]
      rfl

/-- The same for a new object that gets its size first. -/
theorem sizeAndMap_provides {undo : OS → OS} (hfree : os.descriptors fd = none)
    (hdescriptors : os'.descriptors = Function.update os.descriptors fd (some object))
    (hmappings : os'.mappings = os.mappings) :
    (sizeAndMap os' fd size region o undo).returned = true →
      Provides os (os'.resize object size.toNat) size object
        (sizeAndMap os' fd size region o undo) := by
  have hfd : os'.descriptors fd = some object := by rw [hdescriptors, Function.update_self]
  unfold sizeAndMap
  rw [ftruncate_eq hfd]
  by_cases htruncates : o.ftruncate = true ∧ 0 ≤ offT size
  · rw [if_pos htruncates, offT_toNat htruncates.2]
    exact mapRegion_provides hfree hdescriptors hmappings
  · rw [if_neg htruncates]
    exact fun h => by cases h

/-- A descriptor of the object is all that is new. -/
theorem mapRegion_installed {outcome : Option ℕ} (hfree : os.descriptors fd = none)
    (hok : (mapRegion (os.install fd object) fd size region outcome id).returned = true) :
    Provides os os size object (mapRegion (os.install fd object) fd size region outcome id) := by
  have hdescriptors : (os.install fd object).descriptors =
      Function.update os.descriptors fd (some object) := rfl
  have h := mapRegion_provides hfree hdescriptors rfl hok
  exact ⟨h.acquired, h.names, h.sizes⟩

/-- **`open_shared_memory`** provides the object of the name. -/
theorem openSharedMemory_provides {region : SharedMemoryRegion} :
    (openSharedMemory os (some name) size (some region) o).returned = true →
      ∃ object, os.names name = some object ∧
        Provides os os size object (openSharedMemory os (some name) size (some region) o) := by
  simp only [openSharedMemory]
  split
  · exact fun h => by cases h
  split
  next => exact fun h => by cases h
  next fd hopen =>
    obtain ⟨hfree, ⟨object, hname, -, rfl⟩ | ⟨-, hcreat, -⟩⟩ := shmOpen_ok hopen
    · exact fun hok => ⟨object, hname, mapRegion_installed hfree hok⟩
    · cases hcreat

/-- **`create_or_open_shared_memory`** provides a new object of the size asked for, under a name
    that was free, or the object of that name. -/
theorem createOrOpen_provides {region : SharedMemoryRegion} {w : Bool}
    {r : SetupResult × Option Bool}
    (hr : createOrOpenSharedMemory os (some name) size (some region) (some w) o = r)
    (hok : r.1.returned = true) :
    (os.names name = none ∧ r.2 = some true ∧
        Provides os ((os.create name).resize os.created size.toNat) size os.created r.1) ∨
      ∃ object, os.names name = some object ∧ r.2 = some false ∧
        Provides os os size object r.1 := by
  subst hr
  revert hok
  simp only [createOrOpenSharedMemory]
  split
  · exact fun h => by cases h
  split
  next os' fd hopen =>
    obtain ⟨hfree, ⟨object, -, hexcl, -⟩ | ⟨hname, -, rfl⟩⟩ := shmOpen_ok hopen
    · cases hexcl
    intro hok
    have hdescriptors : ((os.create name).install fd os.created).descriptors =
        Function.update os.descriptors fd (some os.created) := rfl
    have h := sizeAndMap_provides hfree hdescriptors rfl hok
    exact .inl ⟨hname, if_pos hok, h.acquired, h.names, h.sizes⟩
  next os' e hopen =>
    obtain rfl := shmOpen_error hopen
    split
    · exact fun h => by cases h
    split
    next => exact fun h => by cases h
    next fd hagain =>
      obtain ⟨hfree, ⟨object, hname, -, rfl⟩ | ⟨-, hcreat, -⟩⟩ := shmOpen_ok hagain
      · exact fun hok => .inr ⟨object, hname, if_pos hok, mapRegion_installed hfree hok⟩
      · cases hcreat

end Provided

/-! ## 2. When the kernel grants every call -/

/-- **The kernel is willing**: there are a free descriptor and free addresses, and the size is one
    that `ftruncate` takes. -/
structure Outcomes.Available (o : Outcomes) (os : OS) (size : UInt64) : Prop where
  shmOpen : ∃ fd : ℕ, o.shmOpen = .ok fd ∧ os.descriptors fd = none
  shmReopen : ∃ fd : ℕ, o.shmReopen = .ok fd ∧ os.descriptors fd = none
  ftruncate : o.ftruncate = true
  mmap : ∃ addr, o.mmap = some addr ∧ addr ≠ 0 ∧ ∀ p ∈ os.mappings, p.Avoids addr size.toNat
  small : size.toNat < 2 ^ 63

section Available

variable {os : OS} {size : UInt64} {fd object addr : ℕ} {o : Outcomes} {name : String}
  {region : SharedMemoryRegion}

theorem mapRegion_returned {out : Option SharedMemoryRegion} {undo : OS → OS}
    (hfd : os.descriptors fd = some object) (hpos : 0 < size.toNat) (haddr : addr ≠ 0)
    (havoids : ∀ p ∈ os.mappings, p.Avoids addr size.toNat) :
    (mapRegion os fd size out (some addr) undo).returned = true := by
  unfold mapRegion
  rw [mmap_granted hfd hpos haddr havoids]

theorem offT_nonneg (h : size.toNat < 2 ^ 63) : 0 ≤ offT size := by
  rw [offT_eq, if_pos (by omega)]
  omega

theorem toNat_pos (h : size ≠ 0) : 0 < size.toNat :=
  Nat.pos_of_ne_zero fun e => h (UInt64.toNat_inj.mp e)

/-- **Then the creating call succeeds**, whether the name is free or taken. -/
theorem createOrOpen_returned {w : Bool} (h : o.Available os size) (hsize : size ≠ 0) :
    (createOrOpenSharedMemory os (some name) size (some region) (some w) o).1.returned = true := by
  obtain ⟨fd, hopen, hfree⟩ := h.shmOpen
  obtain ⟨fd', hreopen, hfree'⟩ := h.shmReopen
  obtain ⟨addr, hmmap, haddr, havoids⟩ := h.mmap
  cases hname : os.names name with
  | none =>
      have hfd : ((os.create name).install fd os.created).descriptors fd = some os.created :=
        Function.update_self _ _ _
      simp only [createOrOpenSharedMemory, if_neg hsize, hopen, shmOpen_new hfree hname,
        SetupResult.note, sizeAndMap, ftruncate_eq hfd, hmmap,
        if_pos (And.intro h.ftruncate (offT_nonneg h.small))]
      exact mapRegion_returned hfd (toNat_pos hsize) haddr havoids
  | some object =>
      have hfd : (os.install fd' object).descriptors fd' = some object :=
        Function.update_self _ _ _
      simp only [createOrOpenSharedMemory, if_neg hsize, hopen, shmOpen_taken hfree hname, hreopen,
        shmOpen_named hfree' hname, SetupResult.note, hmmap, ne_eq, not_true_eq_false, if_false]
      exact mapRegion_returned hfd (toNat_pos hsize) haddr havoids

/-- **The opening call succeeds if the name is taken.** -/
theorem openSharedMemory_returned (h : o.Available os size) (hsize : size ≠ 0)
    (hname : os.names name ≠ none) :
    (openSharedMemory os (some name) size (some region) o).returned = true := by
  obtain ⟨fd, hopen, hfree⟩ := h.shmOpen
  obtain ⟨addr, hmmap, haddr, havoids⟩ := h.mmap
  obtain ⟨object, hname⟩ := Option.ne_none_iff_exists'.mp hname
  have hfd : (os.install fd object).descriptors fd = some object := Function.update_self _ _ _
  simp only [openSharedMemory, if_neg hsize, hopen, shmOpen_named hfree hname, hmmap]
  exact mapRegion_returned hfd (toNat_pos hsize) haddr havoids

end Available

end HseMultithreading.Hw4
