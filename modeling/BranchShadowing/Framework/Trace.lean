import Mathlib.Data.List.Infix

/-!
# Deterministic systems and what they show

A system either halts or makes one step, which shows a list of events. An
observer sees some of the events (`obs`) and, once the system has halted, an
outcome (`out`). `Emits` and `Ends` say what it sees of the run from a state;
`Simulation` relates the states of two systems so that every step of the first
is at least one step of the second, and `Simulation.same` concludes that the
two runs show the same: every finite observation of one is one of the other,
and one halts exactly when the other does, with the same outcome.
-/

namespace BS

/-- A deterministic system: the events of the next step and the state after
it, or `none` where the system has halted. -/
structure System (S E : Type*) where
  step : S → Option (List E × S)

namespace System

variable {S E O F : Type*} (M : System S E)

/-- `M` makes `n` steps from `s` to `s'`, which show `es`. -/
inductive StepsIn : Nat → S → List E → S → Prop
  | refl (s : S) : StepsIn 0 s [] s
  | cons {n : Nat} {s s₁ s' : S} {es fs : List E} :
      M.step s = some (es, s₁) → StepsIn n s₁ fs s' → StepsIn (n + 1) s (es ++ fs) s'

/-- `os` is a prefix of what the observer sees of the run from `s`. -/
def Emits (obs : E → Option O) (s : S) (os : List O) : Prop :=
  ∃ n es s', M.StepsIn n s es s' ∧ os <+: es.filterMap obs

/-- The run from `s` halts, having shown `os`, with outcome `f`. -/
def Ends (obs : E → Option O) (out : S → F) (s : S) (os : List O) (f : F) : Prop :=
  ∃ n es s', M.StepsIn n s es s' ∧ M.step s' = none ∧ es.filterMap obs = os ∧ out s' = f

/-- From `s` the system comes to `s'`, in one step or more, and the observer sees
`os` on the way. -/
def Shows (obs : E → Option O) (s : S) (os : List O) (s' : S) : Prop :=
  ∃ n es, 0 < n ∧ M.StepsIn n s es s' ∧ es.filterMap obs = os

/-- The state after `n` steps, or the one in which the system halts before. -/
def after : Nat → S → S
  | 0, s => s
  | n + 1, s =>
    match M.step s with
    | none => s
    | some (_, s') => after n s'

/-- What the first `n` steps show. -/
def shown : Nat → S → List E
  | 0, _ => []
  | n + 1, s =>
    match M.step s with
    | none => []
    | some (es, s') => es ++ shown n s'

variable {M}

theorem StepsIn.one {s s' : S} {es : List E} (h : M.step s = some (es, s')) :
    M.StepsIn 1 s es s' := by
  simpa using StepsIn.cons h (StepsIn.refl s')

theorem StepsIn.trans {m n : Nat} {s s₁ s' : S} {es fs : List E}
    (h₁ : M.StepsIn m s es s₁) (h₂ : M.StepsIn n s₁ fs s') :
    M.StepsIn (m + n) s (es ++ fs) s' := by
  induction h₁ with
  | refl => simpa using h₂
  | cons h _ ih =>
    have := StepsIn.cons h (ih h₂)
    rwa [← List.append_assoc, Nat.add_right_comm] at this

theorem StepsIn.shows {obs : E → Option O} {n : Nat} {s s' : S} {es : List E} {os : List O}
    (h : M.StepsIn (n + 1) s es s') (ho : es.filterMap obs = os) : M.Shows obs s os s' :=
  ⟨n + 1, es, Nat.succ_pos n, h, ho⟩

theorem Shows.trans {obs : E → Option O} {s s₁ s' : S} {os ps : List O}
    (h₁ : M.Shows obs s os s₁) (h₂ : M.Shows obs s₁ ps s') : M.Shows obs s (os ++ ps) s' := by
  obtain ⟨m, es, hm, h₁, rfl⟩ := h₁
  obtain ⟨n, fs, -, h₂, rfl⟩ := h₂
  exact ⟨m + n, es ++ fs, by omega, h₁.trans h₂, List.filterMap_append⟩

/-- A run of a deterministic system continues any shorter one. -/
theorem StepsIn.split {m n : Nat} {s s₁ s' : S} {es fs : List E}
    (h₁ : M.StepsIn m s es s₁) (h₂ : M.StepsIn n s fs s') (hmn : m ≤ n) :
    ∃ gs, fs = es ++ gs ∧ M.StepsIn (n - m) s₁ gs s' := by
  induction h₁ generalizing n fs with
  | refl => exact ⟨fs, rfl, h₂⟩
  | cons h _ ih =>
    cases h₂ with
    | refl => omega
    | cons h' h₂ =>
      obtain ⟨rfl, rfl⟩ := Prod.mk.inj (Option.some.inj (h.symm.trans h'))
      obtain ⟨gs, rfl, hg⟩ := ih h₂ (by omega)
      exact ⟨gs, (List.append_assoc ..).symm, by rwa [Nat.add_sub_add_right]⟩

/-- A halted state makes no step. -/
theorem StepsIn.of_halted {n : Nat} {s s' : S} {es : List E} (h : M.StepsIn n s es s')
    (hs : M.step s = none) : n = 0 ∧ es = [] ∧ s' = s := by
  cases h with
  | refl => exact ⟨rfl, rfl, rfl⟩
  | cons h => rw [hs] at h; cases h

/-- No run is longer than one that halts. -/
theorem StepsIn.le_of_halted {m n : Nat} {s s₁ s' : S} {es fs : List E}
    (h₁ : M.StepsIn m s es s₁) (hs : M.step s₁ = none) (h₂ : M.StepsIn n s fs s') : n ≤ m := by
  by_contra hn
  obtain ⟨gs, -, hg⟩ := h₁.split h₂ (by omega)
  have := (hg.of_halted hs).1
  omega

/-- Two runs that halt show the same. -/
theorem StepsIn.eq_of_halted {m n : Nat} {s s₁ s' : S} {es fs : List E}
    (h₁ : M.StepsIn m s es s₁) (hs₁ : M.step s₁ = none) (h₂ : M.StepsIn n s fs s')
    (hs' : M.step s' = none) : es = fs := by
  have hmn : m ≤ n := h₂.le_of_halted hs' h₁
  obtain ⟨gs, rfl, hg⟩ := h₁.split h₂ hmn
  obtain ⟨-, rfl, -⟩ := hg.of_halted hs₁
  exact (List.append_nil es).symm

/-- A run that comes back to where it started shows nothing else ever after. -/
theorem StepsIn.mem_of_cycle {k n : Nat} {s s' : S} {es fs : List E} (hk : 0 < k)
    (h : M.StepsIn k s es s) (h' : M.StepsIn n s fs s') : ∀ e ∈ fs, e ∈ es := by
  induction n using Nat.strongRecOn generalizing fs with
  | ind n ih =>
    rcases Nat.le_total k n with hkn | hnk
    · obtain ⟨gs, rfl, hg⟩ := h.split h' hkn
      intro e he
      exact (List.mem_append.mp he).elim id (ih (n - k) (by omega) hg e)
    · obtain ⟨gs, rfl, -⟩ := h'.split h hnk
      exact fun e he => List.mem_append_left _ he

/-- A system makes `n` steps, or halts before. -/
theorem exists_stepsIn (n : Nat) (s : S) :
    ∃ k es s', M.StepsIn k s es s' ∧ (k = n ∨ M.step s' = none) := by
  induction n generalizing s with
  | zero => exact ⟨0, [], s, .refl s, .inl rfl⟩
  | succ n ih =>
    cases h : M.step s with
    | none => exact ⟨0, [], s, .refl s, .inr h⟩
    | some p =>
      obtain ⟨k, es, s', hs, hk⟩ := ih p.2
      exact ⟨k + 1, p.1 ++ es, s', .cons h hs, hk.imp (congrArg (· + 1)) id⟩

theorem stepsIn_shown (n : Nat) (s : S) : ∃ k, M.StepsIn k s (M.shown n s) (M.after n s) := by
  induction n generalizing s with
  | zero => exact ⟨0, .refl s⟩
  | succ n ih =>
    cases h : M.step s with
    | none => exact ⟨0, by simpa [after, shown, h] using StepsIn.refl s⟩
    | some p =>
      obtain ⟨k, hs⟩ := ih p.2
      exact ⟨k + 1, by simpa [after, shown, h] using StepsIn.cons h hs⟩

theorem stepsIn_after (n : Nat) (s : S) : ∃ k es, M.StepsIn k s es (M.after n s) := by
  obtain ⟨k, hs⟩ := M.stepsIn_shown n s
  exact ⟨k, _, hs⟩

theorem emits_shown (obs : E → Option O) (n : Nat) (s : S) :
    M.Emits obs s ((M.shown n s).filterMap obs) := by
  obtain ⟨k, hs⟩ := M.stepsIn_shown n s
  exact ⟨k, _, _, hs, List.prefix_rfl⟩

/-- Of two observations of one run, one continues the other. -/
theorem Emits.prefix_or {obs : E → Option O} {s : S} {os ps : List O} (h₁ : M.Emits obs s os)
    (h₂ : M.Emits obs s ps) : os <+: ps ∨ ps <+: os := by
  obtain ⟨m, es, s₁, hs₁, h₁⟩ := h₁
  obtain ⟨n, fs, s₂, hs₂, h₂⟩ := h₂
  rcases Nat.le_total m n with hmn | hmn
  · obtain ⟨gs, rfl, -⟩ := hs₁.split hs₂ hmn
    rw [List.filterMap_append] at h₂
    exact List.prefix_or_prefix_of_prefix (h₁.trans (List.prefix_append ..)) h₂
  · obtain ⟨gs, rfl, -⟩ := hs₂.split hs₁ hmn
    rw [List.filterMap_append] at h₁
    exact List.prefix_or_prefix_of_prefix h₁ (h₂.trans (List.prefix_append ..))

/-- What is seen first of a run is always the same. -/
theorem Emits.cons_eq {obs : E → Option O} {s : S} {o o' : O} {os os' : List O}
    (h : M.Emits obs s (o :: os)) (h' : M.Emits obs s (o' :: os')) : o = o' := by
  rcases h.prefix_or h' with hp | hp
  · exact (List.cons_prefix_cons.mp hp).1
  · exact (List.cons_prefix_cons.mp hp).1.symm

/-- What is seen of a run behind its first steps is what is seen from there. -/
theorem StepsIn.emits_iff {obs : E → Option O} {k : Nat} {s s' : S} {es : List E}
    (h : M.StepsIn k s es s') (os : List O) :
    M.Emits obs s (es.filterMap obs ++ os) ↔ M.Emits obs s' os := by
  constructor
  · rintro ⟨n, fs, s₁, hs, hp⟩
    rcases Nat.le_total k n with hkn | hnk
    · obtain ⟨gs, rfl, hg⟩ := h.split hs hkn
      rw [List.filterMap_append, List.prefix_append_right_inj] at hp
      exact ⟨n - k, gs, s₁, hg, hp⟩
    · obtain ⟨gs, rfl, -⟩ := hs.split h hnk
      have hlen := hp.length_le
      rw [List.filterMap_append, List.length_append, List.length_append] at hlen
      obtain rfl : os = [] := List.length_eq_zero_iff.mp (by omega)
      exact ⟨0, [], s', .refl s', List.nil_prefix⟩
  · rintro ⟨n, fs, s₁, hs, hp⟩
    exact ⟨k + n, es ++ fs, s₁, h.trans hs, by
      rwa [List.filterMap_append, List.prefix_append_right_inj]⟩

theorem StepsIn.emits_iff_of_unseen {obs : E → Option O} {k : Nat} {s s' : S} {es : List E}
    (h : M.StepsIn k s es s') (hs : es.filterMap obs = []) (os : List O) :
    M.Emits obs s os ↔ M.Emits obs s' os := by
  rw [← h.emits_iff os, hs, List.nil_append]

/-- Nothing is seen of a system that has halted. -/
theorem Emits.of_halted {obs : E → Option O} {s : S} {os : List O} (h : M.Emits obs s os)
    (hs : M.step s = none) : os = [] := by
  obtain ⟨n, es, s', hes, hp⟩ := h
  obtain ⟨-, rfl, -⟩ := hes.of_halted hs
  exact List.prefix_nil.mp hp

/-- Nothing is seen of a run that goes round unseen. -/
theorem Emits.of_cycle {obs : E → Option O} {k : Nat} {s : S} {es : List E} {os : List O}
    (h : M.Emits obs s os) (hk : 0 < k) (hc : M.StepsIn k s es s) (hs : es.filterMap obs = []) :
    os = [] := by
  obtain ⟨n, fs, s', hfs, hp⟩ := h
  rw [List.filterMap_eq_nil_iff.mpr fun e he =>
    List.filterMap_eq_nil_iff.mp hs e (hc.mem_of_cycle hk hfs e he)] at hp
  exact List.prefix_nil.mp hp

/-- An invariant of the steps holds in every state of a run. -/
theorem StepsIn.invariant {P : S → Prop}
    (hstep : ∀ {s s' es}, P s → M.step s = some (es, s') → P s')
    {n : Nat} {s s' : S} {es : List E} (h : M.StepsIn n s es s') (hs : P s) : P s' := by
  induction h with
  | refl => exact hs
  | cons h _ ih => exact ih (hstep hs h)

end System

/-- The two runs show the same to an observer of each. -/
def SameBehaviour {S₁ S₂ E₁ E₂ O F : Type*} (M₁ : System S₁ E₁) (M₂ : System S₂ E₂)
    (obs₁ : E₁ → Option O) (obs₂ : E₂ → Option O) (out₁ : S₁ → F) (out₂ : S₂ → F)
    (s : S₁) (t : S₂) : Prop :=
  (∀ os, M₁.Emits obs₁ s os ↔ M₂.Emits obs₂ t os) ∧
    ∀ os f, M₁.Ends obs₁ out₁ s os f ↔ M₂.Ends obs₂ out₂ t os f

/-- A relation between the states of two systems that the steps of the first
keep, each matched by one or more steps of the second that show the same. -/
structure Simulation {S₁ S₂ E₁ E₂ O F : Type*} (M₁ : System S₁ E₁) (M₂ : System S₂ E₂)
    (obs₁ : E₁ → Option O) (obs₂ : E₂ → Option O) (out₁ : S₁ → F) (out₂ : S₂ → F)
    (R : S₁ → S₂ → Prop) : Prop where
  step {s s' : S₁} {t : S₂} {es : List E₁} : R s t → M₁.step s = some (es, s') →
    ∃ t', M₂.Shows obs₂ t (es.filterMap obs₁) t' ∧ R s' t'
  halt {s : S₁} {t : S₂} : R s t → M₁.step s = none →
    ∃ n fs t', M₂.StepsIn n t fs t' ∧ M₂.step t' = none ∧ fs.filterMap obs₂ = [] ∧
      out₂ t' = out₁ s

namespace Simulation

variable {S₁ S₂ E₁ E₂ O F : Type*} {M₁ : System S₁ E₁} {M₂ : System S₂ E₂}
  {obs₁ : E₁ → Option O} {obs₂ : E₂ → Option O} {out₁ : S₁ → F} {out₂ : S₂ → F}
  {R : S₁ → S₂ → Prop}

/-- A run of the first system is matched by one of the second, no shorter. -/
theorem steps (h : Simulation M₁ M₂ obs₁ obs₂ out₁ out₂ R) {n : Nat} {s s' : S₁} {t : S₂}
    {es : List E₁} (hR : R s t) (hs : M₁.StepsIn n s es s') :
    ∃ m fs t', n ≤ m ∧ M₂.StepsIn m t fs t' ∧ fs.filterMap obs₂ = es.filterMap obs₁ ∧
      R s' t' := by
  induction hs generalizing t with
  | refl => exact ⟨0, [], t, Nat.le_refl 0, .refl t, rfl, hR⟩
  | cons hstep _ ih =>
    obtain ⟨t₁, ⟨k, gs, hk, hg, ho⟩, hR₁⟩ := h.step hR hstep
    obtain ⟨m, fs, t', hm, hf, ho', hR'⟩ := ih hR₁
    exact ⟨k + m, gs ++ fs, t', by omega, hg.trans hf,
      by rw [List.filterMap_append, List.filterMap_append, ho, ho'], hR'⟩

/-- Related states show the same. -/
theorem same (h : Simulation M₁ M₂ obs₁ obs₂ out₁ out₂ R) {s : S₁} {t : S₂} (hR : R s t) :
    SameBehaviour M₁ M₂ obs₁ obs₂ out₁ out₂ s t := by
  have ends : ∀ {n es s'}, M₁.StepsIn n s es s' → M₁.step s' = none →
      ∃ m fs t', M₂.StepsIn m t fs t' ∧ M₂.step t' = none ∧
        fs.filterMap obs₂ = es.filterMap obs₁ ∧ out₂ t' = out₁ s' := by
    intro n es s' hs hh
    obtain ⟨m, fs, t₁, -, hf, ho, hR'⟩ := h.steps hR hs
    obtain ⟨k, gs, t', hg, ht, ho', hout⟩ := h.halt hR' hh
    exact ⟨m + k, fs ++ gs, t', hf.trans hg, ht,
      by rw [List.filterMap_append, ho', List.append_nil, ho], hout⟩
  refine ⟨fun os => ⟨?_, ?_⟩, fun os f => ⟨?_, ?_⟩⟩
  · rintro ⟨n, es, s', hs, hp⟩
    obtain ⟨m, fs, t', -, hf, ho, -⟩ := h.steps hR hs
    exact ⟨m, fs, t', hf, ho ▸ hp⟩
  · rintro ⟨m, fs, t', hf, hp⟩
    obtain ⟨n, es, s', hs, hn⟩ := M₁.exists_stepsIn m s
    rcases hn with rfl | hh
    · obtain ⟨k, gs, t'', hk, hg, ho, -⟩ := h.steps hR hs
      obtain ⟨gs', rfl, -⟩ := hf.split hg hk
      rw [List.filterMap_append] at ho
      exact ⟨n, es, s', hs, hp.trans ⟨_, ho⟩⟩
    · obtain ⟨k, gs, t'', hg, ht, ho, -⟩ := ends hs hh
      obtain ⟨gs', rfl, -⟩ := hf.split hg (hg.le_of_halted ht hf)
      rw [List.filterMap_append] at ho
      exact ⟨n, es, s', hs, hp.trans ⟨_, ho⟩⟩
  · rintro ⟨n, es, s', hs, hh, rfl, rfl⟩
    obtain ⟨m, fs, t', hf, ht, ho, hout⟩ := ends hs hh
    exact ⟨m, fs, t', hf, ht, ho, hout⟩
  · rintro ⟨m, fs, t', hf, ht, rfl, rfl⟩
    obtain ⟨n, es, s', hs, hn⟩ := M₁.exists_stepsIn (m + 1) s
    rcases hn with rfl | hh
    · obtain ⟨k, gs, t'', hk, hg, -⟩ := h.steps hR hs
      have := hf.le_of_halted ht hg
      omega
    · obtain ⟨k, gs, t'', hg, ht', ho, hout⟩ := ends hs hh
      obtain ⟨gs', rfl, hg'⟩ := hf.split hg (hg.le_of_halted ht' hf)
      obtain ⟨-, rfl, rfl⟩ := hg'.of_halted ht
      exact ⟨n, es, s', hs, hh, by rw [← ho, List.append_nil], hout.symm⟩

end Simulation

/-- Where the steps of the first system are matched except in some states, a run of it is
matched by one of the second until it comes to such a state. -/
theorem System.StepsIn.matched_until {S₁ S₂ E₁ E₂ O : Type*} {M₁ : System S₁ E₁}
    {M₂ : System S₂ E₂} {obs₁ : E₁ → Option O} {obs₂ : E₂ → Option O} {R : S₁ → S₂ → Prop}
    {Bad : S₁ → Prop}
    (hstep : ∀ {s s' t es}, R s t → ¬ Bad s → M₁.step s = some (es, s') →
      ∃ t', M₂.Shows obs₂ t (es.filterMap obs₁) t' ∧ R s' t')
    {n : Nat} {s s' : S₁} {t : S₂} {es : List E₁} (hR : R s t) (h : M₁.StepsIn n s es s')
    (hbad : Bad s') :
    ∃ k es' s₁ m fs t', M₁.StepsIn k s es' s₁ ∧ Bad s₁ ∧ M₂.StepsIn m t fs t' ∧
      fs.filterMap obs₂ = es'.filterMap obs₁ ∧ R s₁ t' := by
  induction h generalizing t with
  | refl s => exact ⟨0, [], s, 0, [], t, .refl s, hbad, .refl t, rfl, hR⟩
  | @cons _ s s₂ _ es fs h _ ih =>
    by_cases hb : Bad s
    · exact ⟨0, [], s, 0, [], t, .refl s, hb, .refl t, rfl, hR⟩
    · obtain ⟨t₂, ⟨j, gs, -, hg, ho⟩, hR₂⟩ := hstep hR hb h
      obtain ⟨k, es', s₁, m, fs', t', h₁, hb₁, h₂, ho', hR'⟩ := ih hR₂ hbad
      refine ⟨k + 1, es ++ es', s₁, j + m, gs ++ fs', t', .cons h h₁, hb₁, hg.trans h₂, ?_, hR'⟩
      rw [List.filterMap_append, List.filterMap_append, ho, ho']

/-- Two systems that make the same steps in the states of an invariant show the same. -/
theorem SameBehaviour.of_step_eq {S E O F : Type*} {M₁ M₂ : System S E} {obs : E → Option O}
    {out : S → F} {I : S → Prop} (hI : ∀ s s' es, I s → M₁.step s = some (es, s') → I s')
    (heq : ∀ s, I s → M₂.step s = M₁.step s) {s : S} (hs : I s) :
    SameBehaviour M₁ M₂ obs obs out out s s := by
  have h : Simulation M₁ M₂ obs obs out out fun s t => t = s ∧ I s :=
    { step := fun {s s' t es} hR hstep => by
        obtain ⟨rfl, hi⟩ := hR
        exact ⟨s', (System.StepsIn.one ((heq _ hi).trans hstep)).shows rfl, rfl, hI _ _ _ hi hstep⟩
      halt := fun {s t} hR hstep => by
        obtain ⟨rfl, hi⟩ := hR
        exact ⟨0, [], _, .refl _, (heq _ hi).trans hstep, rfl, rfl⟩ }
  exact h.same ⟨rfl, hs⟩

end BS
