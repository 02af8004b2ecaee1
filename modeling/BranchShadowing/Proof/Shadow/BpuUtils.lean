import BranchShadowing.Proof.Shadow.AlignedMem
import BranchShadowing.Proof.X86.Machine
import BranchShadowing.Spec.Shadow.Execution
import Mathlib.Data.List.Nodup

/-!
# The slide visits every slot

A group of three jumps is executed from the first slot to the third and back to the
second (`group_steps`), and leaves at the next group; the return behind the last group is
the only one that is left (`fillSlide_ok`).
-/

namespace BS.ShadowCode.BpuUtils

open Machine (Executed Holds)

variable {jumpSlide a entry target mapped : Ptr} {jumpSize entries : BitVec 64} {m m' : Mem Byte}
variable {s : Machine.State} {i k n groups : Nat}

/-! ## Execution -/

def jumps : List Byte := [0xeb, 0x02, 0xeb, 0x02, 0xeb, 0xfc]

theorem step_jump {d : Byte} {t : Ptr} (h : Holds s.mem s.rip [0xeb, d])
    (ht : Machine.jumpTo s.rip 2 d = t) :
    Machine.step s = some ([⟨s.rip, .jmp t, true, t⟩], { s with rip := t }) := by
  rw [← ht]
  exact Machine.step_of_holds h rfl rfl

/-- The events of a group. -/
def groupRun (a : Ptr) : List Executed :=
  [⟨a, .jmp (a + 4), true, a + 4⟩, ⟨a + 4, .jmp (a + 2), true, a + 2⟩,
    ⟨a + 2, .jmp (a + 6), true, a + 6⟩]

/-- First slot, third, second. -/
theorem group_steps (h : Holds s.mem s.rip jumps) :
    Machine.system.StepsIn 3 s (groupRun s.rip) { s with rip := s.rip + 6 } := by
  have h₁ : Machine.step s = some ([⟨s.rip, .jmp (s.rip + 4), true, s.rip + 4⟩],
      { s with rip := s.rip + 4 }) :=
    step_jump (d := 2) (h.take 2) (BitVec.add_assoc ..)
  have h₂ : Machine.step { s with rip := s.rip + 4 } =
      some ([⟨s.rip + 4, .jmp (s.rip + 2), true, s.rip + 2⟩], { s with rip := s.rip + 2 }) := by
    refine step_jump (s := { s with rip := s.rip + 4 }) (d := 0xfc) (h.drop (k := 4) (by decide)) ?_
    show s.rip + 4 + 2 + _ = s.rip + 2
    rw [BitVec.add_assoc, BitVec.add_assoc]
    rfl
  have h₃ : Machine.step { s with rip := s.rip + 2 } =
      some ([⟨s.rip + 2, .jmp (s.rip + 6), true, s.rip + 6⟩], { s with rip := s.rip + 6 }) := by
    refine step_jump (s := { s with rip := s.rip + 2 }) (d := 2)
      ((h.drop (k := 2) (by decide)).take 2) ?_
    show s.rip + 2 + 2 + _ = s.rip + 6
    rw [BitVec.add_assoc, BitVec.add_assoc]
    rfl
  exact .cons h₁ (.cons h₂ (.one (M := Machine.system) h₃))

/-- The groups one after the other. -/
def slideRun : Nat → Ptr → List Executed
  | 0, _ => []
  | n + 1, a => groupRun a ++ slideRun n (a + 6)

theorem slide_steps (h : ∀ j < n, Holds s.mem (s.rip + BitVec.ofNat 64 (6 * j)) jumps) :
    Machine.system.StepsIn (n * 3) s (slideRun n s.rip)
      { s with rip := s.rip + BitVec.ofNat 64 (6 * n) } := by
  induction n generalizing s with
  | zero =>
    rw [Nat.mul_zero, BitVec.add_zero]
    exact .refl s
  | succ n ih =>
    have hgroup : Holds s.mem s.rip jumps := by simpa using h 0 (Nat.succ_pos n)
    have hadd : ∀ j, s.rip + 6 + BitVec.ofNat 64 (6 * j) = s.rip + BitVec.ofNat 64 (6 * (j + 1)) := by
      intro j
      rw [BitVec.add_assoc, Nat.mul_succ, Nat.add_comm, BitVec.ofNat_add]
      rfl
    have hrest := ih (s := { s with rip := s.rip + 6 }) fun j hj => by
      show Holds s.mem (s.rip + 6 + _) jumps
      rw [hadd]
      exact h (j + 1) (by omega)
    simp only [hadd] at hrest
    rw [Nat.succ_mul, Nat.add_comm]
    exact (group_steps hgroup).trans hrest

/-- Each slot is visited once. -/
theorem slideRun_perm (n : Nat) (a : Ptr) : ((slideRun n a).map Executed.pos).Perm (slots a n) := by
  induction n generalizing a with
  | zero => exact .refl _
  | succ n ih =>
    have hslots : slots a (n + 1) = a :: (a + 2) :: (a + 4) :: slots (a + 6) n := by
      unfold slots
      rw [Nat.mul_succ, Nat.add_comm, List.range_add, List.map_append, List.map_map]
      show [a + BitVec.ofNat 64 0, a + 2, a + 4] ++ _ = [a, a + 2, a + 4] ++ _
      rw [BitVec.add_zero]
      refine congrArg _ (List.map_congr_left fun k _ => ?_)
      show a + BitVec.ofNat 64 (2 * (3 + k)) = a + 6 + BitVec.ofNat 64 (2 * k)
      rw [Nat.mul_add, BitVec.ofNat_add, BitVec.add_assoc]
      rfl
    rw [hslots]
    show (a :: (a + 4) :: (a + 2) :: (slideRun n (a + 6)).map Executed.pos).Perm _
    exact ((List.Perm.swap (a + 2) (a + 4) _).cons a).trans ((ih (a + 6)).cons _ |>.cons _ |>.cons _)

theorem slots_nodup (h : 6 * n < 2 ^ 64) (a : Ptr) : (slots a n).Nodup := by
  refine List.Nodup.map_on (fun j hj k hk (heq : a + _ = a + _) => ?_) List.nodup_range
  rw [List.mem_range] at hj hk
  have hofNat := congrArg BitVec.toNat (((BitVec.add_right_inj a).mp heq))
  rw [BitVec.toNat_ofNat, BitVec.toNat_ofNat, Nat.mod_eq_of_lt (show 2 * j < 2 ^ 64 by omega),
    Nat.mod_eq_of_lt (show 2 * k < 2 ^ 64 by omega)] at hofNat
  omega

theorem slideRun_jmp (n : Nat) (a : Ptr) : ∀ e ∈ slideRun n a, ∃ t, e.instr = .jmp t := by
  induction n generalizing a with
  | zero => simp [slideRun]
  | succ n ih =>
    intro e he
    rcases List.mem_append.mp he with he | he
    · simp only [groupRun, List.mem_cons, List.not_mem_nil, or_false] at he
      rcases he with rfl | rfl | rfl
      all_goals exact ⟨_, rfl⟩
    · exact ih _ e he

/-- A slide with its jumps and a return is visited as it should be. -/
theorem visits (hn : 6 * n < 2 ^ 64)
    (h : ∀ j < n, Holds m (entry + BitVec.ofNat 64 (6 * j)) jumps)
    (hret : Holds m (entry + BitVec.ofNat 64 (6 * n)) [0xc3]) : Visits entry n m := by
  intro s back stack hrip hmem hstack
  subst hrip hmem
  have hslide := slide_steps h
  have hexec : Machine.Instr.ret.exec (s.rip + BitVec.ofNat 64 (6 * n) + BitVec.ofNat 64 1)
      { s with rip := s.rip + BitVec.ofNat 64 (6 * n) } =
        some { s with rip := back, stack := stack } := by
    simp only [Machine.Instr.exec, hstack]
  have hback : Machine.step { s with rip := s.rip + BitVec.ofNat 64 (6 * n) } =
      some ([⟨s.rip + BitVec.ofNat 64 (6 * n), .ret, true, back⟩],
        { s with rip := back, stack := stack }) :=
    Machine.step_of_holds (s := { s with rip := s.rip + BitVec.ofNat 64 (6 * n) }) (n := 1)
      hret rfl hexec
  have hperm := slideRun_perm n s.rip
  exact ⟨_, _, hslide.trans (.one (M := Machine.system) hback), hperm,
    hperm.nodup_iff.mpr (slots_nodup hn s.rip), slideRun_jmp n s.rip⟩

/-! ## The memory -/

/-- What is written from `i` on: groups, the return of each under the next, and nothing
below. -/
theorem fillSlide_ok (jumpSlide : Ptr) {r : Nat} (hsize : (jumpSize - 6).toNat = 6 * groups) (hlt : 6 * groups < 2 ^ 31 - 6)
    (hle : 6 * groups ≤ i + 6 * r) (hr : i + 6 * r < 6 * groups + 6)
    (hroom : jumpSlide.toNat + i + 6 * r + 1 ≤ 2 ^ 64) (m : Mem Byte) :
    ∃ m', fillSlide jumpSlide jumpSize i m = .ok m' ∧
      (∀ x, x < jumpSlide.toNat + i → m' x = m x) ∧
      (∀ j < r, m'.read (jumpSlide.toNat + i + 6 * j) 6 = jumps) ∧
      (0 < r ∨ m (jumpSlide.toNat + i) = 0xc3 → m' (jumpSlide.toNat + i + 6 * r) = 0xc3) := by
  have hi : (BitVec.ofNat 64 i).toNat = i := by
    rw [BitVec.toNat_ofNat, Nat.mod_eq_of_lt (by omega)]
  induction r generalizing i m with
  | zero =>
    refine ⟨m, ?_, fun _ _ => rfl, by simp, by simp⟩
    rw [fillSlide, if_neg]
    · rfl
    · rw [BitVec.lt_def, hi, hsize]
      omega
  | succ r ih =>
    have hadd : (jumpSlide + BitVec.ofNat 64 i).toNat = jumpSlide.toNat + i :=
      Machine.toNat_add_ofNat (by omega)
    obtain ⟨m', hfill, hframe, hgroups, hret⟩ := ih (i := i + 6) (by omega) (by omega) (by omega)
      (m.write (jumpSlide.toNat + i) jumpGroup) (by
        rw [BitVec.toNat_ofNat, Nat.mod_eq_of_lt (by omega)])
    have hhere : m'.read (jumpSlide.toNat + i) 6 = jumps := by
      have hwrite := m.read_write_self (jumpSlide.toNat + i) jumpGroup
      have htake := (m.write (jumpSlide.toNat + i) jumpGroup).take_read
        (a := jumpSlide.toNat + i) (show 6 ≤ jumpGroup.length by decide)
      rw [Mem.read_congr fun k hk => hframe (jumpSlide.toNat + i + k) (by omega), ← htake, hwrite]
      rfl
    refine ⟨m', ?_, fun x hx => ?_, fun j hj => ?_, fun _ => ?_⟩
    · rw [fillSlide, if_pos, if_pos (by omega), Shadow.memcpy, hadd, if_pos]
      · exact hfill
      · exact ⟨by decide, by
          show jumpSlide.toNat + i + 7 ≤ 2 ^ 64
          omega⟩
      · rw [BitVec.lt_def, hi, hsize]
        omega
    · rw [hframe x (by omega), m.write_of_lt hx]
    · cases j with
      | zero => exact hhere
      | succ j =>
        have := hgroups j (by omega)
        rw [← this]
        congr 1
        omega
    · rw [show jumpSlide.toNat + i + 6 * (r + 1) = jumpSlide.toNat + (i + 6) + 6 * r by omega]
      refine hret (.inr ?_)
      rw [← Nat.add_assoc, Mem.write_of_mem m (show 6 < jumpGroup.length by decide)]
      rfl

theorem visits_of_filled {r : Nat}
    (hgroups : ∀ j < r, m.read (jumpSlide.toNat + i + 6 * j) 6 = jumps)
    (hret : m (jumpSlide.toNat + i + 6 * r) = 0xc3)
    (hroom : jumpSlide.toNat + i + 6 * r + 1 ≤ 2 ^ 64) :
    Visits (jumpSlide + BitVec.ofNat 64 i) r m := by
  have hentry : (jumpSlide + BitVec.ofNat 64 i).toNat = jumpSlide.toNat + i :=
    Machine.toNat_add_ofNat (by omega)
  have hslot : ∀ k, k ≤ r →
      (jumpSlide + BitVec.ofNat 64 i + BitVec.ofNat 64 (6 * k)).toNat = jumpSlide.toNat + i + 6 * k :=
    fun k hk => by rw [Machine.toNat_add_ofNat (by omega), hentry]
  refine visits (by omega) (fun j hj => ⟨?_, ?_⟩) ⟨?_, ?_⟩
  · rw [hslot j hj.le]
    exact hgroups j hj
  · rw [hslot j hj.le]
    show _ + 6 ≤ _
    omega
  · rw [hslot r (Nat.le_refl r), List.length_singleton, Mem.read_succ, hret]
    rfl
  · rw [hslot r (Nat.le_refl r)]
    exact hroom

/-- Both rounds visit all slots, whatever memory is mapped. -/
theorem doSequentialJumps_visits (hentries : 2 ≤ entries.toNat) (hlt : entries.toNat * 6 < 2 ^ 31)
    (hb : Block mapped (AlignedMem.make target (entries * 6 + 20) lbrEntryBits).size) (m : Mem Byte) :
    ∃ jumpSlide m₀ m₁,
      doSequentialJumps entries target mapped m = .ok [(jumpSlide, m₀), (jumpSlide + 1, m₁)] ∧
        Visits jumpSlide (entries.toNat - 1) m₀ ∧ Visits (jumpSlide + 1) (entries.toNat - 1) m₁ := by
  have hmul : (entries * 6).toNat = entries.toNat * 6 := by
    rw [BitVec.toNat_mul]
    exact Nat.mod_eq_of_lt (show entries.toNat * 6 < 2 ^ 64 by omega)
  have hsub : (entries * 6 - 6).toNat = 6 * (entries.toNat - 1) := by
    rw [BitVec.toNat_sub_of_le, hmul]
    · show entries.toNat * 6 - 6 = _
      omega
    · rw [BitVec.le_def, hmul]
      show 6 ≤ _
      omega
  have hsize : (entries * 6 + 20).toNat = entries.toNat * 6 + 20 := by
    rw [BitVec.toNat_add, hmul]
    exact Nat.mod_eq_of_lt (show entries.toNat * 6 + 20 < 2 ^ 64 by omega)
  obtain ⟨a, p, halloc, hptr, -, hroom⟩ :=
    AlignedMem.asPtr_room target (entries * 6 + 20) (by decide) hb (by
      rw [hsize, lbrEntryBits]
      omega)
  have hfits := hb.fits
  obtain ⟨m₀, h₀, -, hgroups₀, hret₀⟩ := fillSlide_ok p (i := 0) hsub (by omega)
    (r := entries.toNat - 1) (by omega) (by omega) (by omega) m
  obtain ⟨m₁, h₁, -, hgroups₁, hret₁⟩ := fillSlide_ok p (i := 1) hsub (by omega)
    (r := entries.toNat - 1) (by omega) (by omega) (by omega) m₀
  refine ⟨p, m₀, m₁, ?_, ?_, ?_⟩
  · unfold doSequentialJumps
    simp only [halloc, bind, Except.bind]
    rw [hptr]
    simp only [rounds, h₀, h₁, bind, Except.bind, pure, Except.pure]
    rw [BitVec.add_zero]
    rfl
  · have h := visits_of_filled hgroups₀ (hret₀ (.inl (by omega))) (by omega)
    rwa [BitVec.add_zero] at h
  · exact visits_of_filled (i := 1) hgroups₁ (hret₁ (.inl (by omega))) (by omega)

/-- A slide of four groups: the return behind each but the last is overwritten by the next. -/
theorem doSequentialJumps_visits_five : ∃ jumpSlide m₀ m₁,
    doSequentialJumps 5 0x401000 0x7f0000000000 (fun _ => 0) =
      .ok [(jumpSlide, m₀), (jumpSlide + 1, m₁)] ∧
        Visits jumpSlide ((5 : BitVec 64).toNat - 1) m₀ ∧
        Visits (jumpSlide + 1) ((5 : BitVec 64).toNat - 1) m₁ :=
  doSequentialJumps_visits (by decide) (by decide) ⟨by decide, by decide, by decide⟩ _

end BS.ShadowCode.BpuUtils
