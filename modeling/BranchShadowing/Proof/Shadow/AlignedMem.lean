import BranchShadowing.Framework.Mask
import BranchShadowing.Spec.Shadow

/-!
# Aligned memory

The entry of the memory mapped is the alias of the target in the window of `mmap`'s
address (`allocate_eq`). Where that lies below the address, `allocate` adds the mask
and is one short of the next alias (`usable_iff`).
-/

namespace BS.ShadowCode

variable {k : Nat} {mapped target : Ptr} {size : BitVec 64}

theorem ensure_ok {p : Prop} [Decidable p] {text : String} {u : Unit} :
    ensure p text = .ok u ↔ p := by
  unfold ensure
  split <;> simp_all

theorem ensure_true {p : Prop} [Decidable p] {text : String} (h : p) : ensure p text = .ok () :=
  if_pos h

theorem getMask_eq (k : Nat) : Pointers.getMask k = lowMask 64 k := rfl

namespace AlignedMem

/-- The alias of the target in the window of `mapped`. -/
def window (mapped target : Ptr) (k : Nat) : Ptr :=
  (mapped &&& ~~~lowMask 64 k) + (target &&& lowMask 64 k)

theorem toNat_window (hk : k < 64) (mapped target : Ptr) :
    (window mapped target k).toNat =
      mapped.toNat - mapped.toNat % 2 ^ k + target.toNat % 2 ^ k := by
  have h := and_and_not target mapped (lowMask 64 k)
  rw [window, BitVec.add_comm, BitVec.toNat_add_of_and_eq_zero h, toNat_and_lowMask hk,
    toNat_and_not_lowMask hk, Nat.add_comm]

theorem window_aliases (hk : k < 64) : Aliases k (window mapped target k) target := by
  unfold Aliases
  rw [toNat_window hk mapped target, Nat.add_mod, Nat.mod_eq_zero_of_dvd (Nat.dvd_sub_mod mapped.toNat),
    Nat.zero_add, Nat.mod_mod, Nat.mod_mod]

theorem window_lt_iff (hk : k < 64) :
    window mapped target k < mapped ↔ target.toNat % 2 ^ k < mapped.toNat % 2 ^ k := by
  have hle := Nat.mod_le mapped.toNat (2 ^ k)
  rw [BitVec.lt_def, toNat_window hk mapped target]
  omega

theorem allocate_eq (target : Ptr) (size : BitVec 64) (k : Nat) (h : mapped ≠ nullptr) :
    (make target size k).allocate mapped =
      .ok (true, { make target size k with
        mem := mapped
        entry := if window mapped target k < mapped then window mapped target k + lowMask 64 k
          else window mapped target k }) := by
  unfold allocate
  rw [ensure_true (show (make target size k).mem = nullptr from rfl)]
  show (if mapped = nullptr then _ else _) = _
  rw [if_neg h]
  rfl

theorem toNat_size (hk : k < 64) (target : Ptr) (size : BitVec 64) :
    (make target size k).size.toNat = (2 ^ k + size.toNat) % 2 ^ 64 := by
  have h : (1#64 <<< k).toNat = 2 ^ k := by
    rw [BitVec.toNat_shiftLeft, Nat.shiftLeft_eq, show (1#64).toNat = 1 from rfl, Nat.one_mul,
      Nat.mod_eq_of_lt (Nat.pow_lt_pow_right (by decide) hk)]
  show (1#64 <<< k + size).toNat = _
  rw [BitVec.toNat_add, h]

/-- One below an alias is none. -/
theorem not_aliases (hk : k < 64) (h : target.toNat % 2 ^ k < mapped.toNat % 2 ^ k) :
    ¬ Aliases k (window mapped target k + lowMask 64 k) target := by
  have hpos : 0 < 2 ^ k := Nat.two_pow_pos k
  have hlt : mapped.toNat % 2 ^ k < 2 ^ k := Nat.mod_lt _ hpos
  have hdvd : 2 ^ k ∣ 2 ^ 64 := Nat.pow_dvd_pow 2 hk.le
  have hwin : (window mapped target k).toNat % 2 ^ k = target.toNat % 2 ^ k := window_aliases hk
  unfold Aliases
  rw [BitVec.toNat_add, Nat.mod_mod_of_dvd _ hdvd, toNat_lowMask hk, Nat.add_mod, hwin,
    Nat.mod_eq_of_lt (by omega : 2 ^ k - 1 < 2 ^ k)]
  rcases Nat.eq_zero_or_pos (target.toNat % 2 ^ k) with h0 | h0
  · rw [h0, Nat.zero_add, Nat.mod_eq_of_lt (by omega)]
    omega
  · rw [Nat.mod_eq_sub_mod (by omega), Nat.mod_eq_of_lt (by omega)]
    omega

/-- From the address returned on, an alias or not, there is room for the size. -/
theorem asPtr_room (target : Ptr) (size : BitVec 64) (hk : k < 64)
    (hb : Block mapped (make target size k).size) (hfits : 2 ^ k + size.toNat < 2 ^ 64) :
    ∃ a p, (make target size k).allocate mapped = .ok (true, a) ∧ a.asPtr = .ok p ∧
      mapped.toNat ≤ p.toNat ∧
      p.toNat + size.toNat < mapped.toNat + (make target size k).size.toNat := by
  have hsize := toNat_size hk target size
  have hwin := toNat_window hk mapped target
  have hlt := Nat.mod_lt target.toNat (Nat.two_pow_pos k)
  have hr := Nat.mod_lt mapped.toNat (Nat.two_pow_pos k)
  have hle := Nat.mod_le mapped.toNat (2 ^ k)
  have hb' := hb.fits
  rw [Nat.mod_eq_of_lt hfits] at hsize
  refine ⟨_, _, allocate_eq target size k hb.ne_null, by rw [asPtr, ensure_true hb.ne_null]; rfl, ?_⟩
  show mapped.toNat ≤ (ite _ _ _ : Ptr).toNat ∧
    (ite _ _ _ : Ptr).toNat + size.toNat < mapped.toNat + (make target size k).size.toNat
  split
  · rename_i hcorr
    have hmod := (window_lt_iff hk).mp hcorr
    rw [BitVec.toNat_add, toNat_lowMask hk, Nat.mod_eq_of_lt (by omega)]
    omega
  · rename_i hcorr
    have hmod := Nat.not_lt.mp fun h => hcorr ((window_lt_iff hk).mpr h)
    omega

/-- The address is usable when it is not the corrected one, and the size did not overflow. -/
theorem usable_iff (target : Ptr) (size : BitVec 64) (hk : k < 64)
    (hb : Block mapped (make target size k).size) :
    (∀ a p, (make target size k).allocate mapped = .ok (true, a) → a.asPtr = .ok p →
        Usable target size k a p) ↔
      mapped.toNat % 2 ^ k ≤ target.toNat % 2 ^ k ∧ 2 ^ k + size.toNat < 2 ^ 64 := by
  have halloc := allocate_eq target size k hb.ne_null
  have hsize := toNat_size hk target size
  have hwin := toNat_window hk mapped target
  have hlt := Nat.mod_lt target.toNat (Nat.two_pow_pos k)
  have hle := Nat.mod_le mapped.toNat (2 ^ k)
  have hpow : 2 ^ k < 2 ^ 64 := Nat.pow_lt_pow_right (by decide) hk
  constructor
  · intro h
    have hu := h _ _ halloc (by rw [asPtr, ensure_true hb.ne_null]; rfl)
    by_cases hw : target.toNat % 2 ^ k < mapped.toNat % 2 ^ k
    · have ha := hu.aliases
      rw [if_pos ((window_lt_iff hk).mpr hw)] at ha
      exact absurd ha (not_aliases hk hw)
    · have hroom := hu.room
      rw [if_neg (fun h => hw ((window_lt_iff hk).mp h))] at hroom
      simp only at hroom
      rw [hwin, hsize] at hroom
      omega
  · rintro ⟨hw, hfits⟩ a p ha hp
    rw [halloc, if_neg (fun h => Nat.not_lt.mpr hw ((window_lt_iff hk).mp h))] at ha
    obtain rfl := (Prod.mk.inj (Except.ok.inj ha)).2
    rw [asPtr, ensure_true hb.ne_null] at hp
    obtain rfl := Except.ok.inj hp
    rw [Nat.mod_eq_of_lt hfits] at hsize
    refine ⟨?_, ?_, ?_⟩
    · exact window_aliases hk
    · show mapped.toNat ≤ (window mapped target k).toNat
      omega
    · show (window mapped target k).toNat + size.toNat ≤ mapped.toNat + (make target size k).size.toNat
      omega

/-- Memory at the start of a window of 4 GiB. -/
theorem usable_iff_window : ∃ a p, (make 0x401000 22 32).allocate 0x7f0000000000 = .ok (true, a) ∧
    a.asPtr = .ok p ∧ Usable 0x401000 22 32 a p := by
  have hb : Block 0x7f0000000000 (make 0x401000 22 32).size := ⟨by decide, by decide, by decide⟩
  have h := (usable_iff 0x401000 22 (k := 32) (by decide) hb).mpr ⟨by decide, by decide⟩
  have halloc := allocate_eq 0x401000 22 32 hb.ne_null
  exact ⟨_, 0x7f0000401000, halloc, by decide, h _ _ halloc (by decide)⟩

/-- Memory behind the alias in its window. -/
theorem corrected_not_usable :
    ¬ ∀ a p, (make 0x401000 22 32).allocate 0x7f0000800000 = .ok (true, a) →
      a.asPtr = .ok p → Usable 0x401000 22 32 a p := by
  intro h
  have hu := h _ 0x7f0100400fff (allocate_eq _ _ _ (by decide)) (by decide)
  exact absurd hu.aliases (by decide)

end AlignedMem

end BS.ShadowCode
