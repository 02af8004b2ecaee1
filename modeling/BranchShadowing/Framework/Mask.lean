import Mathlib.Data.Nat.ModEq

/-!
# Low masks

The mask of the `k` low bits (`lowMask`) takes a number modulo `2 ^ k`; its complement
leaves the multiple of `2 ^ k` below. The low bits of one number and the high bits of
another make a number (`toNat_splice`).
-/

namespace BS

variable {w k : Nat}

def lowMask (w k : Nat) : BitVec w := 1#w <<< k - 1

theorem toNat_lowMask (hk : k < w) : (lowMask w k).toNat = 2 ^ k - 1 := by
  have hlt : 2 ^ k < 2 ^ w := Nat.pow_lt_pow_right (by decide) hk
  have hpos : 0 < 2 ^ k := Nat.two_pow_pos k
  have h1 : (1#w).toNat = 1 := by rw [BitVec.toNat_ofNat, Nat.mod_eq_of_lt (by omega)]
  have hshift : (1#w <<< k).toNat = 2 ^ k := by
    rw [BitVec.toNat_shiftLeft, h1, Nat.shiftLeft_eq, Nat.one_mul, Nat.mod_eq_of_lt hlt]
  rw [lowMask, BitVec.toNat_sub_of_le, hshift]
  · exact congrArg (2 ^ k - ·) h1
  · show (1#w).toNat ≤ _
    rw [h1, hshift]
    omega

theorem toNat_and_lowMask (hk : k < w) (x : BitVec w) :
    (x &&& lowMask w k).toNat = x.toNat % 2 ^ k := by
  rw [BitVec.toNat_and, toNat_lowMask hk, Nat.and_two_pow_sub_one_eq_mod]

/-- The bits in a mask and those outside it have none in common. -/
theorem and_and_not (x y m : BitVec w) : (x &&& m) &&& (y &&& ~~~m) = 0#w := by
  ext i
  simp
  grind

theorem and_add_and_not (x m : BitVec w) : (x &&& m) + (x &&& ~~~m) = x := by
  rw [BitVec.add_eq_or_of_and_eq_zero _ _ (and_and_not x x m), ← BitVec.and_or_distrib_left,
    BitVec.or_not_self, BitVec.and_allOnes]

theorem toNat_and_not_lowMask (hk : k < w) (x : BitVec w) :
    (x &&& ~~~lowMask w k).toNat = x.toNat - x.toNat % 2 ^ k := by
  have h := BitVec.toNat_add_of_and_eq_zero (and_and_not x x (lowMask w k))
  rw [and_add_and_not, toNat_and_lowMask hk] at h
  omega

theorem toNat_splice (hk : k < w) (x y : BitVec w) :
    ((x &&& lowMask w k) ||| (y &&& ~~~lowMask w k)).toNat =
      x.toNat % 2 ^ k + (y.toNat - y.toNat % 2 ^ k) := by
  have h := and_and_not x y (lowMask w k)
  rw [← BitVec.add_eq_or_of_and_eq_zero _ _ h, BitVec.toNat_add_of_and_eq_zero h,
    toNat_and_lowMask hk, toNat_and_not_lowMask hk]

/-! ## Offsets that keep the low bits -/

theorem toNat_add_mod (hk : k ≤ w) (x y : BitVec w) :
    (x + y).toNat % 2 ^ k = (x.toNat % 2 ^ k + y.toNat % 2 ^ k) % 2 ^ k := by
  rw [BitVec.toNat_add, Nat.mod_mod_of_dvd _ (Nat.pow_dvd_pow 2 hk), Nat.add_mod]

theorem toNat_sub_mod (hk : k ≤ w) {x y : BitVec w} (h : x.toNat % 2 ^ k = y.toNat % 2 ^ k) :
    (x - y).toNat % 2 ^ k = 0 := by
  have hadd := toNat_add_mod hk (x - y) y
  rw [BitVec.sub_add_cancel, h, ← Nat.add_mod] at hadd
  have hmod : (x - y).toNat + y.toNat ≡ 0 + y.toNat [MOD 2 ^ k] := by
    rw [Nat.zero_add]
    exact hadd.symm
  exact Nat.ModEq.add_right_cancel' _ hmod

end BS
