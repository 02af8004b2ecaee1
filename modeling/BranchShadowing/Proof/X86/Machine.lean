import BranchShadowing.Spec.X86.Machine

/-!
# Running bytes

An instruction is decoded from its own bytes (`decode_append`), so the machine makes the
step of an instruction wherever memory holds its bytes (`step_of_holds`). Over NOPs it
makes as many steps as there are (`nops`).
-/

namespace BS.Machine

variable {m : Mem Byte} {a : Addr} {l : List Byte} {i : Instr} {n : Nat} {s s' : State}

/-! ## Decoding -/

theorem decode_append {r : Instr × Nat} (h : decode a l = some r) (rest : List Byte) :
    decode a (l ++ rest) = some r := by
  unfold decode at h
  split at h
  case h_12 => cases h
  all_goals exact h

theorem decode_take (h : decode a l = some (i, n)) : decode a (l.take maxLength) = some (i, n) := by
  unfold decode at h
  split at h
  case h_12 => cases h
  all_goals exact h

/-! ## Memory -/

/-- The bytes of an address lie there in memory. -/
theorem Holds.byte {k : Nat} (h : Holds m a l) (hk : k < l.length) : m (a.toNat + k) = l[k] := by
  have hget := m.read_getElem? (a := a.toNat) hk
  rw [h.read, List.getElem?_eq_getElem hk] at hget
  exact (Option.some.inj hget).symm

theorem toNat_add_ofNat (h : a.toNat + n < 2 ^ 64) : (a + BitVec.ofNat 64 n).toNat = a.toNat + n := by
  rw [BitVec.toNat_add, BitVec.toNat_ofNat, Nat.mod_eq_of_lt (by omega : n < 2 ^ 64),
    Nat.mod_eq_of_lt h]

/-- What lies behind the start of the bytes. -/
theorem Holds.drop {k : Nat} (h : Holds m a l) (hk : k < l.length) :
    Holds m (a + BitVec.ofNat 64 k) (l.drop k) := by
  have hfits := h.fits
  have hadd : (a + BitVec.ofNat 64 k).toNat = a.toNat + k := toNat_add_ofNat (by omega)
  constructor
  · rw [hadd, List.length_drop, ← m.drop_read hk.le, h.read]
  · rw [hadd, List.length_drop]
    omega

theorem Holds.take (h : Holds m a l) (k : Nat) : Holds m a (l.take k) := by
  have hle := List.length_take_le' k l
  constructor
  · rw [← m.take_read hle, h.read, List.length_take, ← List.take_eq_take_min]
  · have := h.fits
    omega

/-! ## Steps -/

theorem decode_of_holds (h : Holds m a l) (hd : decode a l = some (i, n)) :
    decode a (m.read a.toNat maxLength) = some (i, n) := by
  have hshort := h.take maxLength
  have hlen := List.length_take_le maxLength l
  obtain ⟨k, hk⟩ := Nat.exists_eq_add_of_le hlen
  rw [hk, m.read_add, hshort.read]
  exact decode_append (decode_take hd) _

theorem step_of_holds (h : Holds s.mem s.rip l) (hd : decode s.rip l = some (i, n))
    (he : i.exec (s.rip + BitVec.ofNat 64 n) s = some s') :
    step s = some ([⟨s.rip, i, i.taken s, s'.rip⟩], s') := by
  unfold step
  rw [decode_of_holds h hd]
  show (i.exec (s.rip + BitVec.ofNat 64 n) s >>= _) = _
  rw [he]
  rfl

/-- No instruction writes to memory. -/
theorem exec_mem {next : Addr} (h : i.exec next s = some s') : s'.mem = s.mem := by
  cases i
  case ret =>
    cases hs : s.stack with
    | nil => simp [Instr.exec, hs] at h
    | cons p stack =>
      simp only [Instr.exec, hs, Option.some_inj] at h
      rw [← h]
  all_goals rw [← Option.some.inj h]

theorem step_mem {es : List Executed} (h : step s = some (es, s')) : s'.mem = s.mem := by
  obtain ⟨⟨i, n⟩, -, h⟩ := Option.bind_eq_some_iff.mp h
  obtain ⟨t, ht, h⟩ := Option.bind_eq_some_iff.mp h
  obtain ⟨-, rfl⟩ := Prod.mk.inj (Option.some.inj h)
  exact exec_mem ht

theorem steps_mem {es : List Executed} (h : system.StepsIn n s es s') : s'.mem = s.mem :=
  h.invariant (P := fun t => t.mem = s.mem) (fun ht hstep => (step_mem hstep).trans ht) rfl

theorem step_nop (h : s.mem s.rip.toNat = 0x90) :
    step s = some ([⟨s.rip, .nop, false, s.rip + 1⟩], { s with rip := s.rip + 1 }) := by
  have hread : Holds s.mem s.rip [0x90] := by
    refine ⟨?_, s.rip.isLt⟩
    rw [List.length_singleton, Mem.read_succ, h]
    rfl
  exact step_of_holds hread rfl rfl

/-- Over NOPs the machine only counts. -/
theorem nops (h : ∀ k < n, s.mem (s.rip.toNat + k) = 0x90) (hfits : s.rip.toNat + n ≤ 2 ^ 64) :
    ∃ es, system.StepsIn n s es { s with rip := s.rip + BitVec.ofNat 64 n } ∧
      ∀ e ∈ es, e.instr = .nop := by
  induction n generalizing s with
  | zero =>
    refine ⟨[], ?_, by simp⟩
    rw [BitVec.add_zero]
    exact .refl s
  | succ n ih =>
    have hstep := step_nop (h 0 (Nat.succ_pos n))
    cases n with
    | zero => exact ⟨_, .one hstep, by simp⟩
    | succ n =>
      have hadd : (s.rip + 1).toNat = s.rip.toNat + 1 := toNat_add_ofNat (n := 1) (by omega)
      obtain ⟨es, hs, hes⟩ := ih (s := { s with rip := s.rip + 1 }) (fun k hk => by
        show s.mem ((s.rip + 1).toNat + k) = 0x90
        rw [hadd, Nat.add_assoc, Nat.add_comm 1]
        exact h (k + 1) (by omega)) (by
        show (s.rip + 1).toNat + (n + 1) ≤ 2 ^ 64
        omega)
      refine ⟨⟨s.rip, .nop, false, s.rip + 1⟩ :: es, ?_, ?_⟩
      · have hrip : s.rip + BitVec.ofNat 64 (n + 1 + 1) = s.rip + 1 + BitVec.ofNat 64 (n + 1) := by
          rw [BitVec.add_assoc, Nat.add_comm (n + 1), BitVec.ofNat_add]
          rfl
        rw [hrip]
        exact .cons hstep hs
      · intro e he
        rcases List.mem_cons.mp he with rfl | he
        · rfl
        · exact hes e he

/-! ## Runs -/

section

variable {Q : List Executed → State → Prop}

theorem branches_append (es fs : List Executed) : branches (es ++ fs) = branches es ++ branches fs :=
  List.filter_append ..

theorem Runs.done (h : Q [] s) : Runs s Q := ⟨0, [], s, .refl s, h⟩

theorem Runs.mono {Q' : List Executed → State → Prop} (h : Runs s Q)
    (hQ : ∀ bs s', Q bs s' → Q' bs s') : Runs s Q' := by
  obtain ⟨n, es, s', hs, hq⟩ := h
  exact ⟨n, es, s', hs, hQ _ _ hq⟩

theorem Runs.steps {es : List Executed} (h : system.StepsIn n s es s')
    (hr : Runs s' fun bs s'' => Q (branches es ++ bs) s'') : Runs s Q := by
  obtain ⟨k, fs, s'', hs, hq⟩ := hr
  refine ⟨n + k, es ++ fs, s'', h.trans hs, ?_⟩
  rwa [branches_append]

/-- An instruction that is no branch. -/
theorem Runs.instr (h : Holds s.mem s.rip l) (hd : decode s.rip l = some (i, n))
    (hi : i.isBranch = false) (he : i.exec (s.rip + BitVec.ofNat 64 n) s = some s')
    (hr : Runs s' Q) : Runs s Q := by
  refine .steps (.one (step_of_holds h hd he)) ?_
  have hnone : branches [⟨s.rip, i, i.taken s, s'.rip⟩] = [] := by simp [branches, hi]
  rwa [hnone]

theorem Runs.branch (h : Holds s.mem s.rip l) (hd : decode s.rip l = some (i, n))
    (hi : i.isBranch) (he : i.exec (s.rip + BitVec.ofNat 64 n) s = some s')
    (hr : Runs s' fun bs s'' => Q (⟨s.rip, i, i.taken s, s'.rip⟩ :: bs) s'') : Runs s Q := by
  refine .steps (.one (step_of_holds h hd he)) ?_
  have hone : branches [⟨s.rip, i, i.taken s, s'.rip⟩] = [⟨s.rip, i, i.taken s, s'.rip⟩] := by
    simp [branches, hi]
  rwa [hone]

theorem Runs.nops (h : ∀ k < n, s.mem (s.rip.toNat + k) = 0x90) (hfits : s.rip.toNat + n ≤ 2 ^ 64)
    (hr : Runs { s with rip := s.rip + BitVec.ofNat 64 n } Q) : Runs s Q := by
  obtain ⟨es, hs, hes⟩ := Machine.nops h hfits
  refine .steps hs ?_
  have hnone : branches es = [] := by
    refine List.filter_eq_nil_iff.mpr fun e he => ?_
    rw [hes e he]
    decide
  rwa [hnone]

end

end BS.Machine
