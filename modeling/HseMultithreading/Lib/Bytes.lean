/-
  File:      HseMultithreading/Lib/Bytes.lean
  Subject:   Byte-addressed memory: words in little-endian order, the sizes and offsets a C compiler
             gives to structs, and records whose fields tile a piece of memory.

  * `load`, `store` -- a word of `w` bytes at an address. What is stored is loaded again
    (`load_store`).
  * `Shape` -- size and alignment of a C type; `Shape.struct`, `Shape.offset` put each member at the
    next address its alignment allows.
  * `Record` -- fields with their places, so that every byte of the record belongs to one field:
    there is no padding, and no two fields overlap. The words of the fields determine the bytes
    (`image_word`) and the other way round (`word_image`); a store to one field is seen there and
    nowhere else (`word_put`).
-/
import Mathlib.Algebra.Group.Nat.Defs
import Mathlib.Tactic.Common

namespace Bytes

/-! ## 1. Words -/

/-- The number in the `w` bytes at address `a`, the lowest byte first. -/
def load (m : ℕ → UInt8) : ℕ → ℕ → ℕ
  | _, 0 => 0
  | a, w + 1 => (m a).toNat + 256 * load m (a + 1) w

/-- The `w` bytes at address `a` replaced by those of the number `v`. -/
def store (m : ℕ → UInt8) (a w v : ℕ) : ℕ → UInt8 :=
  fun b => if a ≤ b ∧ b < a + w then UInt8.ofNat (v / 256 ^ (b - a)) else m b

section Words

variable {m m' : ℕ → UInt8}

theorem load_congr {a w : ℕ} (h : ∀ b, a ≤ b → b < a + w → m b = m' b) :
    load m a w = load m' a w := by
  induction w generalizing a with
  | zero => rfl
  | succ w ih =>
      have htail : load m (a + 1) w = load m' (a + 1) w :=
        ih fun b hb hb' => h b (by omega) (by omega)
      rw [load, load, h a (Nat.le_refl a) (by omega), htail]

theorem load_lt (m : ℕ → UInt8) (a w : ℕ) : load m a w < 256 ^ w := by
  induction w generalizing a with
  | zero => exact Nat.one_pos
  | succ w ih =>
      have hbyte : (m a).toNat < 256 := (m a).toNat_lt
      have htail := ih (a + 1)
      rw [load, Nat.pow_succ]
      omega

theorem store_of_lt (m : ℕ → UInt8) {a w v b : ℕ} (h : b < a) : store m a w v b = m b :=
  if_neg fun hb => Nat.not_le_of_lt h hb.1

theorem store_of_le (m : ℕ → UInt8) {a w v b : ℕ} (h : a + w ≤ b) : store m a w v b = m b :=
  if_neg fun hb => Nat.not_lt_of_le h hb.2

theorem store_inside (m : ℕ → UInt8) {a w v b : ℕ} (h : a ≤ b) (h' : b < a + w) :
    store m a w v b = UInt8.ofNat (v / 256 ^ (b - a)) := if_pos ⟨h, h'⟩

theorem load_store (m : ℕ → UInt8) (a w v : ℕ) : load (store m a w v) a w = v % 256 ^ w := by
  induction w generalizing a v with
  | zero => exact (Nat.mod_one v).symm
  | succ w ih =>
      -- behind the first byte stands the word `v / 256`
      have htail : load (store m a (w + 1) v) (a + 1) w = v / 256 % 256 ^ w := by
        rw [← ih (a + 1) (v / 256)]
        refine load_congr fun b hb hb' => ?_
        obtain ⟨k, rfl⟩ := Nat.exists_eq_add_of_le hb
        rw [store_inside m (by omega) (by omega), store_inside m hb hb',
          show a + 1 + k - a = k + 1 by omega, Nat.add_sub_cancel_left, Nat.pow_succ',
          Nat.div_div_eq_div_mul]
      have hhead : (store m a (w + 1) v a).toNat = v % 256 := by
        rw [store_inside m (Nat.le_refl a) (by omega), Nat.sub_self, Nat.pow_zero, Nat.div_one,
          UInt8.toNat_ofNat']
      rw [load, hhead, htail, Nat.pow_succ', Nat.mod_mul]

theorem byte_of_load (m : ℕ → UInt8) {a w k : ℕ} (hk : k < w) :
    UInt8.ofNat (load m a w / 256 ^ k) = m (a + k) := by
  induction k generalizing a w with
  | zero =>
      obtain ⟨w, rfl⟩ := Nat.exists_eq_add_of_lt hk
      rw [Nat.pow_zero, Nat.div_one, Nat.zero_add, load]
      apply UInt8.toNat.inj
      have hbyte : (m a).toNat < 256 := (m a).toNat_lt
      rw [UInt8.toNat_ofNat']
      show _ = (m a).toNat
      omega
  | succ k ih =>
      obtain ⟨w, rfl⟩ : ∃ w', w = w' + 1 := ⟨w - 1, by omega⟩
      have hbyte : (m a).toNat < 256 := (m a).toNat_lt
      have hdiv : load m a (w + 1) / 256 = load m (a + 1) w := by
        rw [load]
        omega
      rw [Nat.pow_succ', ← Nat.div_div_eq_div_mul, hdiv, ih (by omega), Nat.add_right_comm,
        Nat.add_assoc]

end Words

/-! ## 2. C structs -/

/-- Size and alignment of a C type. -/
structure Shape where
  size : ℕ
  align : ℕ

/-- The next multiple of `align`. -/
def roundUp (n align : ℕ) : ℕ := (n + align - 1) / align * align

/-- A scalar type is aligned to its size. -/
def Shape.scalar (n : ℕ) : Shape := ⟨n, n⟩

def Shape.array (s : Shape) (n : ℕ) : Shape := ⟨n * s.size, s.align⟩

/-- Where the members begin when the first byte free is `n`, and where the last one ends. -/
def Shape.place : ℕ → List Shape → List ℕ × ℕ
  | n, [] => ([], n)
  | n, s :: rest =>
    let start := roundUp n s.align
    let placed := Shape.place (start + s.size) rest
    (start :: placed.1, placed.2)

/-- The alignment of a struct is the largest of its members. -/
def Shape.struct (members : List Shape) : Shape :=
  let align := members.foldr (fun s n => max s.align n) 1
  ⟨roundUp (Shape.place 0 members).2 align, align⟩

/-- Where member `k` of a struct begins. -/
def Shape.offset (members : List Shape) (k : ℕ) : ℕ := (Shape.place 0 members).1.getD k 0

/-! ## 3. Records -/

/-- Fields that tile the bytes `0 … size - 1`. -/
structure Record (F : Type) where
  offset : F → ℕ
  width : F → ℕ
  size : ℕ
  fieldAt : ℕ → F
  inside : ∀ f, offset f + width f ≤ size
  covers : ∀ a, a < size → offset (fieldAt a) ≤ a ∧ a < offset (fieldAt a) + width (fieldAt a)
  only : ∀ f a, offset f ≤ a → a < offset f + width f → fieldAt a = f

namespace Record

variable {F : Type} (R : Record F) (m : ℕ → UInt8) {f g : F}

/-- The word in a field. -/
def word (f : F) : ℕ := load m (R.offset f) (R.width f)

/-- A store to a field. -/
def put (f : F) (v : ℕ) : ℕ → UInt8 := store m (R.offset f) (R.width f) v

/-- The memory with the words `v` in its fields. -/
def image (v : F → ℕ) : ℕ → UInt8 := fun a =>
  if a < R.size then UInt8.ofNat (v (R.fieldAt a) / 256 ^ (a - R.offset (R.fieldAt a))) else m a

theorem word_lt (f : F) : R.word m f < 256 ^ R.width f := load_lt ..

theorem image_of_le (v : F → ℕ) {a : ℕ} (h : R.size ≤ a) : R.image m v a = m a :=
  if_neg (Nat.not_lt_of_le h)

/-- Inside the record nothing of the old memory is left. -/
theorem image_congr (m' : ℕ → UInt8) (v : F → ℕ) {a : ℕ} (h : a < R.size) :
    R.image m v a = R.image m' v a := by
  unfold image
  rw [if_pos h, if_pos h]

theorem word_image {v : F → ℕ} (h : v f < 256 ^ R.width f) : R.word (R.image m v) f = v f := by
  have himage : R.word (R.image m v) f = load (store m (R.offset f) (R.width f) (v f))
      (R.offset f) (R.width f) := by
    refine load_congr fun b hb hb' => ?_
    have hin : b < R.size := Nat.lt_of_lt_of_le hb' (R.inside f)
    rw [store_inside m hb hb', image, if_pos hin, R.only f b hb hb']
  rw [himage, load_store, Nat.mod_eq_of_lt h]

theorem image_word : R.image m (R.word m) = m := by
  funext a
  unfold image
  split
  · rename_i ha
    obtain ⟨hle, hlt⟩ := R.covers a ha
    rw [word, byte_of_load m (by omega), Nat.add_sub_cancel' hle]
  · rfl

/-- Two fields that share a byte are the same. -/
theorem apart (h : f ≠ g) {a : ℕ} (hf : R.offset f ≤ a) (hf' : a < R.offset f + R.width f) :
    a < R.offset g ∨ R.offset g + R.width g ≤ a := by
  by_contra hn
  exact h ((R.only f a hf hf').symm.trans (R.only g a (by omega) (by omega)))

/-- **A store to a field is seen in that field and in no other.** -/
theorem word_put [DecidableEq F] {v : ℕ} (h : v < 256 ^ R.width f) :
    R.word (R.put m f v) = Function.update (R.word m) f v := by
  funext g
  by_cases e : g = f
  · subst e
    rw [Function.update_self, word, put, load_store, Nat.mod_eq_of_lt h]
  · rw [Function.update_of_ne e]
    refine load_congr fun a ha ha' => ?_
    obtain hlt | hle := R.apart e ha ha'
    · exact store_of_lt m hlt
    · exact store_of_le m hle

theorem put_of_le (v : ℕ) {a : ℕ} (h : R.size ≤ a) : R.put m f v a = m a :=
  store_of_le m (Nat.le_trans (R.inside f) h)

end Record

end Bytes
