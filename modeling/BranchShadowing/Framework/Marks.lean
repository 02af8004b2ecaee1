import BranchShadowing.Framework.Trace
import Mathlib.Data.List.Chain

/-!
# Systems that run from mark to mark

A system is paced (`Paced`) if from every state that is at a mark it comes to one more
mark, to which the first leads, or halts. What an observer of the marks sees of a run is
then a chain of them (`Paced.chain`), which ends where the system halts (`Paced.ends`) and
else goes on (`Paced.goesOn`).
-/

namespace BS

namespace System

variable {S E O : Type*} {M : System S E} {obs : E → Option O}

/-- A run from a state that comes to `s₁` has not shown all that is seen on the way, or
goes on from there. -/
theorem Shows.run_cases {n : Nat} {s s₁ s' : S} {os : List O} {es : List E}
    (h : M.Shows obs s os s₁) (hr : M.StepsIn n s es s') :
    es.filterMap obs <+: os ∨
      ∃ k gs, k < n ∧ M.StepsIn k s₁ gs s' ∧ es.filterMap obs = os ++ gs.filterMap obs := by
  obtain ⟨m, fs, hm, hfs, rfl⟩ := h
  by_cases hmn : m ≤ n
  · obtain ⟨gs, rfl, hgs⟩ := hfs.split hr hmn
    exact .inr ⟨n - m, gs, by omega, hgs, List.filterMap_append⟩
  · obtain ⟨gs, rfl, -⟩ := hr.split hfs (by omega)
    rw [List.filterMap_append]
    exact .inl (List.prefix_append ..)

/-- A run that halts comes to every state on the way. -/
theorem Shows.run_of_halted {n : Nat} {s s₁ s' : S} {os : List O} {es : List E}
    (h : M.Shows obs s os s₁) (hr : M.StepsIn n s es s') (hs : M.step s' = none) :
    ∃ k gs, k < n ∧ M.StepsIn k s₁ gs s' ∧ es.filterMap obs = os ++ gs.filterMap obs := by
  obtain ⟨m, fs, hm, hfs, rfl⟩ := h
  have hmn := hr.le_of_halted hs hfs
  obtain ⟨gs, rfl, hgs⟩ := hfs.split hr hmn
  exact ⟨n - m, gs, by omega, hgs, List.filterMap_append⟩

end System

/-- From a state at mark `l` the system comes to one at the next mark, or it halts and is
where mark `l` may be the last. -/
structure Paced {S E O : Type*} (M : System S E) (obs : E → Option O) (At Last : O → S → Prop)
    (Leads : O → O → Prop) : Prop where
  step {l : O} {s : S} : At l s →
    (∃ l' s', M.Shows obs s [l'] s' ∧ Leads l l' ∧ At l' s') ∨
      ∃ s', M.Shows obs s [] s' ∧ M.step s' = none ∧ Last l s'

namespace Paced

variable {S E O : Type*} {M : System S E} {obs : E → Option O} {At Last : O → S → Prop}
  {Leads : O → O → Prop} (h : Paced M obs At Last Leads) {l : O} {s s' : S}
include h

/-- The marks seen from a state at a mark are a chain. -/
theorem chain {n : Nat} {es : List E} (hl : At l s) (hr : M.StepsIn n s es s') :
    (l :: es.filterMap obs).IsChain Leads := by
  induction n using Nat.strongRecOn generalizing l s es with
  | ind n ih =>
    rcases h.step hl with ⟨l', s₁, hs, hlead, hl'⟩ | ⟨s₁, hs, hhalt, -⟩
    · rcases hs.run_cases hr with hp | ⟨k, gs, hk, hgs, he⟩
      · have hc : [l, l'].IsChain Leads := by simpa using hlead
        obtain ⟨_, ht⟩ := hp
        rw [← ht, ← List.cons_append] at hc
        exact hc.left_of_append
      · rw [he]
        exact List.isChain_cons_cons.mpr ⟨hlead, ih k hk hl' hgs⟩
    · rcases hs.run_cases hr with hp | ⟨k, gs, hk, hgs, he⟩
      · rw [List.prefix_nil.mp hp]
        exact List.isChain_singleton l
      · rw [he, (hgs.of_halted hhalt).2.1]
        exact List.isChain_singleton l

/-- Where the system halts the last mark seen may be the last. -/
theorem ends {n : Nat} {es : List E} (hl : At l s) (hr : M.StepsIn n s es s')
    (hs' : M.step s' = none) : ∃ e, (l :: es.filterMap obs).getLast? = some e ∧ Last e s' := by
  induction n using Nat.strongRecOn generalizing l s es with
  | ind n ih =>
    rcases h.step hl with ⟨l', s₁, hs, -, hl'⟩ | ⟨s₁, hs, hhalt, hlast⟩
    · obtain ⟨k, gs, hk, hgs, he⟩ := hs.run_of_halted hr hs'
      obtain ⟨e, hge, hlast⟩ := ih k hk hl' hgs
      refine ⟨e, ?_, hlast⟩
      rw [he, List.singleton_append, List.getLast?_cons_cons]
      exact hge
    · obtain ⟨k, gs, -, hgs, he⟩ := hs.run_of_halted hr hs'
      obtain ⟨-, hnil, heq⟩ := hgs.of_halted hhalt
      refine ⟨l, ?_, heq ▸ hlast⟩
      rw [he, hnil]
      rfl

/-- A system that does not halt shows as many marks as one likes. -/
theorem goesOn (hl : At l s) (k : Nat) :
    (∃ n es s', M.StepsIn n s es s' ∧ (es.filterMap obs).length = k) ∨
      ∃ n es s', M.StepsIn n s es s' ∧ M.step s' = none := by
  induction k generalizing l s with
  | zero => exact .inl ⟨0, [], s, .refl s, rfl⟩
  | succ k ih =>
    rcases h.step hl with ⟨l', s₁, ⟨m, fs, -, hfs, ho⟩, -, hl'⟩ | ⟨s₁, ⟨m, fs, -, hfs, -⟩, hhalt, -⟩
    · rcases ih hl' with ⟨n, es, s', hes, hlen⟩ | ⟨n, es, s', hes, hhalt⟩
      · refine .inl ⟨m + n, fs ++ es, s', hfs.trans hes, ?_⟩
        rw [List.filterMap_append, ho, List.length_append, hlen]
        exact Nat.add_comm ..
      · exact .inr ⟨m + n, fs ++ es, s', hfs.trans hes, hhalt⟩
    · exact .inr ⟨m, fs, s₁, hfs, hhalt⟩

end Paced

end BS
