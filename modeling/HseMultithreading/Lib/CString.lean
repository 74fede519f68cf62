/-
  File:      HseMultithreading/Lib/CString.lean
  Subject:   Reading an array up to a terminator, as the formatting of a `char` array does, and
             reading a number off a string.

  * `scan nul l` -- what stands before the first `nul`; `none` when there is none, so that the scan
    would leave the array.
  * `text nul data` -- what a reader of `data` is to see: the part before the first `nul`, or all.
  * `scan_append_iff` -- in an array that begins with `data`, the scan finds the text of `data`
    exactly when `data` brings a terminator with it or one stands right behind it.
  * `strtoull` -- the number at the front of a string, with its sign taken modulo the width and a
    number that is too large cut down to the largest one; `strtoull_toString` -- it reads back what
    was printed.
-/
import Mathlib.Algebra.Group.Nat.Defs
import Mathlib.Data.List.TakeWhile

namespace CString

variable {β : Type*} [DecidableEq β]

/-- What stands before the first `nul`; `none` when the scan would leave the array. -/
def scan (nul : β) : List β → Option (List β)
  | [] => none
  | b :: bs => if b = nul then some [] else (scan nul bs).map (b :: ·)

/-- The part of `data` before its first `nul`, or all of it. -/
def text (nul : β) (data : List β) : List β := data.takeWhile (· ≠ nul)

section Scan

variable {nul : β} {data : List β}

theorem text_of_notMem (h : nul ∉ data) : text nul data = data := by
  unfold text
  rw [List.takeWhile_eq_self_iff]
  exact fun b hb => decide_eq_true fun e => h (e ▸ hb)

/-- Without a terminator the scan leaves the array. -/
theorem scan_of_notMem (h : nul ∉ data) : scan nul data = none := by
  induction data with
  | nil => rfl
  | cons b bs ih =>
      have hb : b ≠ nul := fun e => h (e ▸ List.mem_cons_self)
      rw [scan, if_neg hb, ih fun hbs => h (List.mem_cons_of_mem _ hbs)]
      rfl

/-- **The scan of an array that begins with `data` finds the text of `data` exactly when a
    terminator stands in `data` or right behind it.** -/
theorem scan_append_iff {behind : List β} :
    scan nul (data ++ behind) = some (text nul data) ↔ nul ∈ data ∨ behind.head? = some nul := by
  induction data with
  | nil =>
      cases behind with
      | nil => simp [scan]
      | cons b bs =>
          by_cases e : b = nul
          · simp [scan, text, e]
          · simp [scan, text, e]
  | cons b bs ih =>
      by_cases e : b = nul
      · simp [scan, text, e]
      · have htext : text nul (b :: bs) = b :: text nul bs := by
          simp [text, e]
        rw [List.cons_append, scan, if_neg e, htext, List.mem_cons, or_iff_right (Ne.symm e), ← ih]
        simp

end Scan

/-! ## Numbers -/

section Numbers

/-- `isspace` of the C locale. -/
def isSpace (c : Char) : Bool := c.toNat == 32 || 9 ≤ c.toNat && c.toNat ≤ 13

/-- The sign in front of the digits, and the digits. -/
def splitSign : List Char → Bool × List Char
  | '-' :: cs => (true, cs)
  | '+' :: cs => (false, cs)
  | cs => (false, cs)

/-- `strtoull(s, nullptr, 10)`. Without a digit the value is 0; what stands behind the digits is not
    looked at. -/
def strtoull (s : List Char) : UInt64 :=
  let (negative, cs) := splitSign (s.dropWhile isSpace)
  let n := Nat.ofDigitChars 10 (cs.takeWhile Char.isDigit) 0
  if 2 ^ 64 ≤ n then UInt64.ofNat (2 ^ 64 - 1)
  else if negative then -UInt64.ofNat n
  else UInt64.ofNat n

/-- A digit is neither a space nor a sign. -/
theorem splitSign_of_isDigit {c : Char} {cs : List Char} (h : c.isDigit = true) :
    splitSign ((c :: cs).dropWhile isSpace) = (false, c :: cs) := by
  have hc : 48 ≤ c.toNat ∧ c.toNat ≤ 57 := by
    simpa [Char.isDigit, UInt32.le_iff_toNat_le] using h
  have hspace : isSpace c = false := by
    unfold isSpace
    simp
    omega
  rw [List.dropWhile_cons_of_neg (by simp [hspace])]
  unfold splitSign
  split
  next e => cases e; exact absurd hc.1 (by decide)
  next e => cases e; exact absurd hc.1 (by decide)
  next => rfl

/-- **A printed number is read back.** -/
theorem strtoull_toString {n : ℕ} (h : n < 2 ^ 64) :
    strtoull (toString n).toList = UInt64.ofNat n := by
  have hchars : (toString n).toList = Nat.toDigits 10 n := by
    rw [Nat.toString_eq_ofList_toDigits, String.toList_ofList]
  have hdigit : ∀ c ∈ Nat.toDigits 10 n, c.isDigit = true :=
    fun c hc => Nat.isDigit_of_mem_toDigits (by decide) (by decide) hc
  rw [hchars]
  cases hd : Nat.toDigits 10 n with
  | nil => exact absurd hd Nat.toDigits_ne_nil
  | cons c cs =>
      rw [hd] at hdigit
      have hall : (c :: cs).takeWhile Char.isDigit = c :: cs :=
        List.takeWhile_eq_self_iff.mpr hdigit
      have hvalue : Nat.ofDigitChars 10 (c :: cs) 0 = n := by
        rw [← hd, Nat.ofDigitChars_ten_toDigits]
      simp only [strtoull, splitSign_of_isDigit (hdigit c List.mem_cons_self), hall, hvalue]
      rw [if_neg (Nat.not_le.mpr h)]
      rfl

end Numbers

end CString
