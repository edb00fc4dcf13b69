/-
HearthVault.Lib.LittleEndian — numbers as bytes, the lowest byte first.

`toLeBytes width n` keeps the lowest `width` bytes of `n`, as a cast to an
unsigned integer of that width does, and `fromLeBytes` reads bytes of any
width. The two are inverse to each other where the number fits
(`fromLeBytes_toLeBytes`) and on the bytes of the width (`toLeBytes_fromLeBytes`).
-/
import Mathlib.Algebra.Ring.Nat
import Mathlib.Data.List.Basic

namespace HearthVault.LittleEndian

/-- `to_le_bytes`, after a cast to `width` bytes. -/
def toLeBytes : Nat → Nat → List UInt8
  | 0, _ => []
  | width + 1, n => UInt8.ofNat n :: toLeBytes width (n / 256)

/-- `from_le_bytes`. -/
def fromLeBytes : List UInt8 → Nat
  | [] => 0
  | b :: bytes => b.toNat + 256 * fromLeBytes bytes

@[simp] theorem length_toLeBytes (width n : Nat) : (toLeBytes width n).length = width := by
  induction width generalizing n with
  | zero => rfl
  | succ width ih => rw [toLeBytes, List.length_cons, ih]

theorem fromLeBytes_toLeBytes_mod (width n : Nat) :
    fromLeBytes (toLeBytes width n) = n % 256 ^ width := by
  induction width generalizing n with
  | zero => rw [pow_zero, Nat.mod_one]; rfl
  | succ width ih =>
    have hsplit : n % (256 * 256 ^ width) = n % 256 + 256 * (n / 256 % 256 ^ width) := Nat.mod_mul
    rw [toLeBytes, fromLeBytes, ih, pow_succ', hsplit, UInt8.toNat_ofNat']

theorem fromLeBytes_toLeBytes {width n : Nat} (h : n < 256 ^ width) :
    fromLeBytes (toLeBytes width n) = n := by
  rw [fromLeBytes_toLeBytes_mod, Nat.mod_eq_of_lt h]

theorem fromLeBytes_lt (bytes : List UInt8) : fromLeBytes bytes < 256 ^ bytes.length := by
  induction bytes with
  | nil => decide
  | cons b bytes ih =>
    have hb := b.toNat_lt
    rw [fromLeBytes, List.length_cons, pow_succ']
    omega

theorem toLeBytes_fromLeBytes (bytes : List UInt8) :
    toLeBytes bytes.length (fromLeBytes bytes) = bytes := by
  induction bytes with
  | nil => rfl
  | cons b bytes ih =>
    have hb := b.toNat_lt
    have hdiv : (b.toNat + 256 * fromLeBytes bytes) / 256 = fromLeBytes bytes := by omega
    have hmod : UInt8.ofNat (b.toNat + 256 * fromLeBytes bytes) = b := by
      rw [← UInt8.toNat_inj, UInt8.toNat_ofNat']
      omega
    rw [List.length_cons, toLeBytes, fromLeBytes, hdiv, hmod, ih]

/-- A byte that is not zero makes a number of its place. -/
theorem pow_le_fromLeBytes {bytes : List UInt8} {i : Nat} {b : UInt8} (h : bytes[i]? = some b)
    (hb : b ≠ 0) : 256 ^ i ≤ fromLeBytes bytes := by
  induction bytes generalizing i with
  | nil => cases h
  | cons c bytes ih =>
    cases i with
    | zero =>
      obtain rfl : c = b := by simpa using h
      have hpos : c.toNat ≠ 0 := fun h => hb (UInt8.toNat_inj.mp h)
      rw [fromLeBytes, pow_zero]
      omega
    | succ i =>
      have hi := ih (i := i) (by simpa using h)
      rw [fromLeBytes, pow_succ']
      omega

end HearthVault.LittleEndian
