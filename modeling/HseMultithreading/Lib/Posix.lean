/-
  File:      HseMultithreading/Lib/Posix.lean
  Subject:   Shared-memory objects, descriptors and mappings, as one process sees them.

  * `OS` -- the names of the shared-memory objects, the sizes of the objects, the open descriptors
    and the mappings. Objects are numbered in the order of their creation; an object that has lost
    its name keeps its number.
  * `shmFile` -- the name under which the system knows the object that a program names: the slashes
    in front do not count.
  * `OS.shmOpen`, `OS.ftruncate`, `OS.mmap` take the OUTCOME the kernel has in store: an error, or
    the descriptor or address it would hand out. A call that can succeed only otherwise than the
    outcome says (the name is taken, the descriptor is open, the addresses are in use) fails.
  * `OS.view` -- what there is to see: the name table with numbers and sizes, the descriptors, the
    mappings.
  * One lemma a call says what its result tells (`shmOpen_ok`, `ftruncate_eq`, `mmap_some`), some
    say when a call is granted (`shmOpen_new`, `shmOpen_named`, `mmap_granted`), and one lemma an
    undo says what it restores (`close_install`, `mappings_unmapped`, `view_unlink`).
-/
import Mathlib.Data.Int.Init
import Mathlib.Logic.Function.Basic

namespace Posix

/-- What a failed call leaves in `errno`, as far as callers tell it apart. -/
inductive Errno where
  | eexist
  | enoent
  | emfile
  | other
  deriving DecidableEq

/-- `size` bytes of an object, from `offset` on, at the addresses from `addr` on. -/
@[ext]
structure Mapping where
  object : ℕ
  offset : ℕ
  addr : ℕ
  size : ℕ
  pos : 0 < size

/-- No address from `addr` to `addr + size` belongs to the mapping. -/
def Mapping.Avoids (m : Mapping) (addr size : ℕ) : Prop :=
  m.addr + m.size ≤ addr ∨ addr + size ≤ m.addr

instance (m : Mapping) (addr size : ℕ) : Decidable (m.Avoids addr size) :=
  inferInstanceAs (Decidable (_ ∨ _))

/-- What is left of a mapping when addresses are unmapped: a part below them and a part above. -/
def Mapping.minus (m : Mapping) (addr size : ℕ) : List Mapping :=
  let below := min (m.addr + m.size) addr - m.addr
  let above := max m.addr (addr + size)
  (if h : 0 < below then [⟨m.object, m.offset, m.addr, below, h⟩] else []) ++
    if h : 0 < m.addr + m.size - above then
      [⟨m.object, m.offset + (above - m.addr), above, m.addr + m.size - above, h⟩]
    else []

/-- The state of the system. Descriptors are `int`s. -/
structure OS where
  names : String → Option ℕ
  sizes : ℕ → ℕ
  created : ℕ
  descriptors : ℤ → Option ℕ
  mappings : List Mapping
  named : ∀ name object, names name = some object → object < created

/-- No object, no descriptor, no mapping. -/
def OS.empty : OS := ⟨fun _ => none, fun _ => 0, 0, fun _ => none, [], nofun⟩

/-- What there is to see of the system. -/
@[ext]
structure View where
  table : String → Option (ℕ × ℕ)
  descriptors : ℤ → Option ℕ
  mappings : List Mapping

def OS.view (os : OS) : View where
  table name := (os.names name).map fun object => (object, os.sizes object)
  descriptors := os.descriptors
  mappings := os.mappings

/-! ## 1. The calls -/

/-- The file of a shared-memory object: the slashes in front of its name are dropped. A name is
    refused if nothing is left of it, or a path, or an entry that every directory has; that the
    system may refuse others, for their length, is an outcome of the call. -/
def shmFile (name : String) : Option String :=
  let file := name.toList.dropWhile (· == '/')
  if file.isEmpty || file.contains '/' || file == ['.'] || file == ['.', '.'] then none
  else some (String.ofList file)

section Calls

/-- A new object, of size 0, under a name. -/
def OS.create (os : OS) (name : String) : OS :=
  { os with
    names := Function.update os.names name (some os.created)
    sizes := Function.update os.sizes os.created 0
    created := os.created + 1
    named := by
      intro name' object h
      by_cases e : name' = name
      · rw [e, Function.update_self] at h
        exact Option.some.inj h ▸ Nat.lt_succ_self _
      · rw [Function.update_of_ne e] at h
        exact Nat.lt_succ_of_lt (os.named name' object h) }

/-- A descriptor that refers to an object. -/
def OS.install (os : OS) (fd : ℤ) (object : ℕ) : OS :=
  { os with descriptors := Function.update os.descriptors fd (some object) }

/-- An object gets a new size. -/
def OS.resize (os : OS) (object size : ℕ) : OS :=
  { os with sizes := Function.update os.sizes object size }

def OS.attach (os : OS) (m : Mapping) : OS := { os with mappings := m :: os.mappings }

/-- The flags of `shm_open` beside `O_RDWR`. -/
structure OpenFlags where
  creat : Bool
  excl : Bool

/-- `shm_open`. -/
def OS.shmOpen (os : OS) (name : String) (flags : OpenFlags) (outcome : Except Errno ℕ) :
    OS × Except Errno ℕ :=
  match outcome with
  | .error e => (os, .error e)
  | .ok fd =>
    if os.descriptors fd ≠ none then (os, .error .emfile)
    else
      match os.names name with
      | some object =>
        if flags.creat && flags.excl then (os, .error .eexist) else (os.install fd object, .ok fd)
      | none =>
        if flags.creat then ((os.create name).install fd os.created, .ok fd)
        else (os, .error .enoent)

/-- `ftruncate`: a negative length is refused. -/
def OS.ftruncate (os : OS) (fd : ℤ) (length : ℤ) (outcome : Bool) : OS × Bool :=
  match os.descriptors fd with
  | some object =>
    if outcome = true ∧ 0 ≤ length then (os.resize object length.toNat, true) else (os, false)
  | none => (os, false)

/-- `mmap` of the first `size` bytes of an object; the address is not null, and `none` is
    `MAP_FAILED`. -/
def OS.mmap (os : OS) (size : ℕ) (fd : ℤ) (outcome : Option ℕ) : OS × Option ℕ :=
  match os.descriptors fd, outcome with
  | some object, some addr =>
    if h : 0 < size ∧ addr ≠ 0 ∧ ∀ m ∈ os.mappings, m.Avoids addr size then
      (os.attach ⟨object, 0, addr, size, h.1⟩, some addr)
    else (os, none)
  | _, _ => (os, none)

def OS.munmap (os : OS) (addr size : ℕ) : OS :=
  { os with mappings := os.mappings.flatMap fun m => m.minus addr size }

def OS.close (os : OS) (fd : ℤ) : OS :=
  { os with descriptors := Function.update os.descriptors fd none }

def OS.shmUnlink (os : OS) (name : String) : OS :=
  { os with
    names := Function.update os.names name none
    named := by
      intro name' object h
      by_cases e : name' = name
      · rw [e, Function.update_self] at h
        cases h
      · rw [Function.update_of_ne e] at h
        exact os.named name' object h }

end Calls

/-! ## 2. What a result tells -/

section Results

variable {os os' : OS} {name : String} {flags : OpenFlags}

/-- A failed `shm_open` changes nothing. -/
theorem shmOpen_error {outcome : Except Errno ℕ} {e : Errno}
    (h : os.shmOpen name flags outcome = (os', .error e)) : os' = os := by
  cases outcome with
  | error e' => cases h; rfl
  | ok fd =>
      simp only [OS.shmOpen] at h
      split at h
      · cases h; rfl
      · split at h <;> split at h <;> cases h <;> rfl

/-- **A descriptor from `shm_open`** is new, and refers to the object of that name or to a new
    one. -/
theorem shmOpen_ok {outcome : Except Errno ℕ} {fd : ℕ}
    (h : os.shmOpen name flags outcome = (os', .ok fd)) :
    os.descriptors fd = none ∧
      ((∃ object, os.names name = some object ∧ (flags.creat && flags.excl) = false ∧
          os' = os.install fd object) ∨
        os.names name = none ∧ flags.creat = true ∧
          os' = (os.create name).install fd os.created) := by
  cases outcome with
  | error e => cases h
  | ok fd' =>
      simp only [OS.shmOpen] at h
      split at h
      · cases h
      next hfree =>
        cases hname : os.names name with
        | some object =>
            simp only [hname] at h
            by_cases hexcl : (flags.creat && flags.excl) = true
            · rw [if_pos hexcl] at h
              cases h
            · rw [if_neg hexcl] at h
              cases h
              exact ⟨Classical.not_not.mp hfree,
                .inl ⟨object, rfl, eq_false_of_ne_true hexcl, rfl⟩⟩
        | none =>
            simp only [hname] at h
            by_cases hcreat : flags.creat = true
            · rw [if_pos hcreat] at h
              cases h
              exact ⟨Classical.not_not.mp hfree, .inr ⟨rfl, hcreat, rfl⟩⟩
            · rw [if_neg hcreat] at h
              cases h

/-- What `ftruncate` does to an open descriptor. -/
theorem ftruncate_eq {fd length : ℤ} {outcome : Bool} {object : ℕ}
    (hfd : os.descriptors fd = some object) :
    os.ftruncate fd length outcome =
      if outcome = true ∧ 0 ≤ length then (os.resize object length.toNat, true)
      else (os, false) := by
  simp only [OS.ftruncate, hfd]

theorem mmap_none {size : ℕ} {fd : ℤ} {outcome : Option ℕ}
    (h : os.mmap size fd outcome = (os', none)) : os' = os := by
  simp only [OS.mmap] at h
  split at h
  · split at h <;> cases h
    rfl
  · cases h
    rfl

/-- **An address from `mmap`** is not null, and the mapping there is new. -/
theorem mmap_some {size addr : ℕ} {fd : ℤ} {outcome : Option ℕ} {object : ℕ}
    (hfd : os.descriptors fd = some object) (h : os.mmap size fd outcome = (os', some addr)) :
    addr ≠ 0 ∧ (∀ m ∈ os.mappings, m.Avoids addr size) ∧
      ∃ hpos, os' = os.attach ⟨object, 0, addr, size, hpos⟩ := by
  cases outcome with
  | none => simp only [OS.mmap, hfd] at h; cases h
  | some addr' =>
      simp only [OS.mmap, hfd] at h
      split at h <;> cases h
      next hok => exact ⟨hok.2.1, hok.2.2, hok.1, rfl⟩

/-- A free descriptor for a new name. -/
theorem shmOpen_new {excl : Bool} {fd : ℕ} (hfree : os.descriptors fd = none)
    (hname : os.names name = none) :
    os.shmOpen name ⟨true, excl⟩ (.ok fd) = ((os.create name).install fd os.created, .ok fd) := by
  simp only [OS.shmOpen, hfree, hname, ne_eq, not_true_eq_false, if_false, if_true]

/-- A name that is taken is not created again. -/
theorem shmOpen_taken {fd object : ℕ} (hfree : os.descriptors fd = none)
    (hname : os.names name = some object) :
    os.shmOpen name ⟨true, true⟩ (.ok fd) = (os, .error .eexist) := by
  simp only [OS.shmOpen, hfree, hname, ne_eq, not_true_eq_false, if_false, Bool.and_self, if_true]

/-- A free descriptor for the object of a name. -/
theorem shmOpen_named {fd object : ℕ} (hfree : os.descriptors fd = none)
    (hname : os.names name = some object) :
    os.shmOpen name ⟨false, false⟩ (.ok fd) = (os.install fd object, .ok fd) := by
  simp only [OS.shmOpen, hfree, hname, ne_eq, not_true_eq_false, if_false, Bool.and_self,
    Bool.false_eq_true]

/-- Free addresses for a mapping. -/
theorem mmap_granted {size addr : ℕ} {fd : ℤ} {object : ℕ}
    (hfd : os.descriptors fd = some object) (hpos : 0 < size) (haddr : addr ≠ 0)
    (havoids : ∀ m ∈ os.mappings, m.Avoids addr size) :
    os.mmap size fd (some addr) = (os.attach ⟨object, 0, addr, size, hpos⟩, some addr) := by
  simp only [OS.mmap, hfd, dif_pos (And.intro hpos (And.intro haddr havoids))]

end Results

/-! ## 3. What an undo restores -/

section Undo

variable {os : OS} {name : String}

/-- A new descriptor that is closed again. -/
theorem descriptors_closed {descriptors : ℤ → Option ℕ} {fd : ℤ} {object : ℕ}
    (h : descriptors fd = none) :
    Function.update (Function.update descriptors fd (some object)) fd none = descriptors := by
  rw [Function.update_idem, ← h, Function.update_eq_self]

theorem close_install {fd : ℤ} {object : ℕ} (h : os.descriptors fd = none) :
    (os.install fd object).close fd = os := by
  simp only [OS.close, OS.install, descriptors_closed h]

/-- Unmapping addresses that a mapping avoids leaves it as it is. -/
theorem Mapping.minus_of_avoids {m : Mapping} {addr size : ℕ} (h : m.Avoids addr size) :
    m.minus addr size = [m] := by
  rcases h with h | h
  · have hbelow : min (m.addr + m.size) addr - m.addr = m.size := by omega
    have habove : m.addr + m.size - max m.addr (addr + size) = 0 := by omega
    simp only [Mapping.minus, hbelow, habove, dif_pos m.pos, dif_neg (Nat.lt_irrefl 0),
      List.append_nil]
  · have hbelow : min (m.addr + m.size) addr - m.addr = 0 := by omega
    have habove : max m.addr (addr + size) = m.addr := by omega
    have hrest : m.addr + m.size - m.addr = m.size := by omega
    simp only [Mapping.minus, hbelow, habove, hrest, dif_pos m.pos, dif_neg (Nat.lt_irrefl 0),
      List.nil_append, Nat.sub_self, Nat.add_zero]

/-- Unmapping the addresses of a mapping removes it. -/
theorem Mapping.minus_self (m : Mapping) : m.minus m.addr m.size = [] := by
  have hbelow : min (m.addr + m.size) m.addr - m.addr = 0 := by omega
  have habove : m.addr + m.size - max m.addr (m.addr + m.size) = 0 := by omega
  simp only [Mapping.minus, hbelow, habove, dif_neg (Nat.lt_irrefl 0), List.append_nil]

/-- **Unmapping what was mapped last** leaves the other mappings as they were. -/
theorem mappings_unmapped {m : Mapping} {ms : List Mapping}
    (h : ∀ m' ∈ ms, m'.Avoids m.addr m.size) :
    (m :: ms).flatMap (fun m' => m'.minus m.addr m.size) = ms := by
  rw [List.flatMap_cons, m.minus_self, List.nil_append]
  induction ms with
  | nil => rfl
  | cons m' ms ih =>
      rw [List.flatMap_cons, Mapping.minus_of_avoids (h m' List.mem_cons_self),
        ih fun m'' hm => h m'' (List.mem_cons_of_mem _ hm)]
      rfl

/-- **Unlinking a name that was just made**: whatever has happened to the new object, there is
    nothing left to see of it. -/
theorem view_unlink {os' : OS} (hname : os.names name = none)
    (hnames : os'.names = Function.update os.names name (some os.created))
    (hsizes : ∀ object < os.created, os'.sizes object = os.sizes object)
    (hdescriptors : os'.descriptors = os.descriptors) (hmappings : os'.mappings = os.mappings) :
    (os'.shmUnlink name).view = os.view := by
  refine View.ext (funext fun name' => ?_) hdescriptors hmappings
  show (Function.update os'.names name none name').map _ = (os.names name').map _
  rw [hnames, Function.update_idem]
  by_cases e : name' = name
  · rw [e, Function.update_self, hname]
    rfl
  · rw [Function.update_of_ne e]
    refine Option.map_congr fun object hobject => ?_
    show (object, os'.sizes object) = (object, os.sizes object)
    rw [hsizes object (os.named name' object hobject)]

/-- A new name can be seen. -/
theorem view_create_ne {os' : OS} (hname : os.names name = none)
    (hnames : os'.names name ≠ none) : os'.view ≠ os.view := by
  intro h
  have htable := congrFun (congrArg View.table h) name
  simp only [OS.view, hname, Option.map_none] at htable
  exact hnames (Option.map_eq_none_iff.mp htable)

/-- A new size of a named object can be seen, unless it is the old one. -/
theorem view_resize_iff {object size : ℕ} (hname : os.names name = some object) :
    (os.resize object size).view = os.view ↔ os.sizes object = size := by
  refine ⟨fun h => ?_, fun h => ?_⟩
  · have htable := congrFun (congrArg View.table h) name
    simp only [OS.view, OS.resize, hname, Option.map_some, Function.update_self] at htable
    exact (Prod.mk.inj (Option.some.inj htable)).2.symm
  · have hsame : Function.update os.sizes object size = os.sizes := by
      rw [← h, Function.update_eq_self]
    simp only [OS.resize, hsame]

end Undo

end Posix
