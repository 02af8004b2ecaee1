import BranchShadowing.Proof.Shadow.Source
import BranchShadowing.Proof.Lbr.Quiet
import BranchShadowing.Proof.Lbr.Script
import BranchShadowing.Spec.Attack

/-!
# What a measurement finds

With the LBR on and filtered, a CPU in user space records every branch that retires there
(`On.run`), and an ioctl that has not turned it off yet none (`Entered.silent`). So when it
does, the ring ends with the branches of the shadow and the few behind them
(`Measurement.moment`), and what the statistics gain, and the script reads, is the record of
the branch at the shadow's source, if it was taken.
-/

namespace BS.Attack

open Lbr Lbr.Kernel ShadowCode ShadowCode.BranchShadow
open Machine (Executed Runs)

variable {s s' : Kernel} {c : Nat} {e : Event} {es es' : List Event} {src : Ptr}

/-! ## What is recorded -/

theorem On.records (h : On c s) (b : Branch) : (s.cpus c).records b = !b.endsInKernel := by
  rw [records_of_select h.select, h.debugctl]
  rfl

theorem log_of_ne_branch (h : Change s e s') (hb : ∀ c' b, e ≠ .branch c' b) :
    s'.log = s.log := by
  cases h with
  | @branch c' b user => exact absurd rfl (hb c' b)
  | _ => rfl

/-- A step that is no branch, on another CPU. -/
theorem On.change (h : On c s) (hch : Change s e s') (he : inKernel c e = false)
    (hb : ∀ c' b, e ≠ .branch c' b) : On c s' := by
  have hne {c' : Nat} (he : (c' == c) = false) : c ≠ c' := fun heq => by simp [heq] at he
  cases hch with
  | none => exact h
  | @branch c' b user => exact absurd rfl (hb c' b)
  | read length => exact ⟨h.debugctl, h.select, h.idle⟩
  | printk line => exact ⟨h.debugctl, h.select, h.idle⟩
  | schedule idle task ready bound =>
    exact ⟨h.debugctl, h.select, (Function.update_of_ne (hne he) ..).trans h.idle⟩
  | sleep current sleeps =>
    exact ⟨h.debugctl, h.select, (Function.update_of_ne (hne he) ..).trans h.idle⟩
  | ioctl idle =>
    exact ⟨h.debugctl, h.select, (Function.update_of_ne (hne he) ..).trans h.idle⟩
  | unload idle =>
    exact ⟨h.debugctl, h.select, (Function.update_of_ne (hne he) ..).trans h.idle⟩
  | @step c' t k op created current free =>
    have hcpu : (s.exec c' t k op created).cpus c = s.cpus c := Function.update_of_ne (hne he) ..
    refine ⟨by rw [hcpu, h.debugctl], by rw [hcpu, h.select], ?_⟩
    simp only [exec]
    split
    · exact (Function.update_of_ne (hne he) ..).trans h.idle
    · exact h.idle

/-- A branch, on this CPU or on another one. -/
theorem On.retire (h : On c s) (c' : Nat) (b : Branch) :
    On c (s.retire c' b) ∧
      (s.retire c' b).log c = s.log c ++ (userBranch c (.branch c' b)).toList := by
  refine ⟨⟨?_, ?_, h.idle⟩, ?_⟩
  · show (Function.update s.cpus c' _ c).debugctl = 1
    rcases eq_or_ne c c' with rfl | hne
    · rw [Function.update_self, retire_debugctl, h.debugctl]
    · rw [Function.update_of_ne hne, h.debugctl]
  · show (Function.update s.cpus c' _ c).select = 1
    rcases eq_or_ne c c' with rfl | hne
    · rw [Function.update_self, retire_select, h.select]
    · rw [Function.update_of_ne hne, h.select]
  · rw [retire_log, h.records, userBranch]
    simp only [Bool.not_eq_true']
    split <;> rfl

/-- A step of a CPU in user space, or of another one. -/
theorem On.act (h : On c s) (he : inKernel c e = false) :
    On c (s.act e) ∧ (s.act e).log c = s.log c ++ (userBranch c e).toList := by
  cases e with
  | branch c' b =>
    rw [Kernel.act]
    split
    · exact h.retire c' b
    · rename_i hbusy
      have hne : c' ≠ c := fun heq => hbusy (.inl (by rw [heq, h.idle]))
      rw [userBranch, if_neg fun heq => hne heq.1]
      exact ⟨h, (List.append_nil _).symm⟩
  | _ =>
    have hch := Kernel.change s
    exact ⟨h.change (hch _) he (by simp),
      (congrFun (log_of_ne_branch (hch _) (by simp)) c).trans (List.append_nil _).symm⟩

theorem On.run (h : On c s) (hes : ∀ e ∈ es, inKernel c e = false) :
    On c (s.run es) ∧ (s.run es).log c = s.log c ++ es.filterMap (userBranch c) := by
  induction es generalizing s with
  | nil => exact ⟨h, (List.append_nil _).symm⟩
  | cons e es ih =>
    obtain ⟨he, hes⟩ := List.forall_mem_cons.mp hes
    obtain ⟨h', hlog⟩ := h.act he
    obtain ⟨h'', hlog'⟩ := ih h' hes
    refine ⟨h'', hlog'.trans ?_⟩
    rw [hlog, List.append_assoc, List.filterMap_cons]
    cases userBranch c e <;> rfl

/-- While an ioctl has the CPU, no branch ends in user space there, and the filter keeps all
others out. -/
theorem Entered.silent {t : Nat} {dev₀ : Lbr.Module} {us : List Branch} (e : Event)
    (h : Entered c t dev₀ s) (hs : Sched s)
    (hsilent : (s.cpus c).select = 1 ∧ s.log c = us) :
    ((s.act e).cpus c).select = 1 ∧ (s.act e).log c = us := by
  obtain ⟨hselect, hlog⟩ := hsilent
  have hch := Kernel.change s e
  refine ⟨?_, ?_⟩
  · rcases hch.own_or_elsewhere hs c with ⟨created, t', k', op, hd⟩ | h'
    · obtain ⟨hr, hk', hop⟩ := current_iff.mp hd.current
      obtain ⟨k, hk, hprog, hpc⟩ := h.task
      obtain rfl := Option.some.inj (hr.symm.trans h.running)
      obtain rfl := Option.some.inj (hk'.symm.trans hk)
      obtain rfl := ioctl_first hprog hpc hop
      rw [hd.state, exec_cpu]
      exact hselect
    · rw [h'.select, hselect]
  · cases e with
    | branch c' b =>
      rw [Kernel.act]
      split
      · rename_i huser
        rw [retire_log, if_neg, List.append_nil, hlog]
        rintro ⟨rfl, hrec⟩
        rw [h.running] at huser
        rw [records_of_select hselect, huser.resolve_left (by simp), Bool.not_true,
          Bool.and_false] at hrec
        cases hrec
      · exact hlog
    | _ => exact (congrFun (log_of_ne_branch hch (by simp)) c).trans hlog

/-! ## The last record of a branch -/

section Records

variable {bs bs₁ bs₂ us : List Branch} {b : Branch} {executed : List Executed}

theorem atAddress_eq_nil : atAddress src bs = [] ↔ ∀ b ∈ bs, b.address ≠ src := by
  simp [atAddress, List.filter_eq_nil_iff]

theorem lastAt_eq_some (hb : b.address = src) (h : ∀ b ∈ bs₂, b.address ≠ src) :
    lastAt src (bs₁ ++ b :: bs₂) = some b := by
  have hnil : bs₂.filter (fun b => b.address = src) = [] := atAddress_eq_nil.mpr h
  rw [lastAt, List.filter_append, List.filter_cons_of_pos (by simpa using hb), hnil,
    List.getLast?_concat]

theorem lastAt_eq_none : lastAt src bs = none ↔ ∀ b ∈ bs, b.address ≠ src := by
  rw [lastAt, List.getLast?_eq_none_iff]
  exact atAddress_eq_nil

theorem RecordOf.address {x : Executed} (h : RecordOf x b) (hlow : x.pos.toNat < 2 ^ 47) :
    b.address = x.pos := by
  rw [Branch.address, h.src, ← BitVec.toNat_inj, BitVec.toNat_setWidth, BitVec.toNat_setWidth,
    Nat.mod_eq_of_lt (show x.pos.toNat < 2 ^ 48 by omega), Nat.mod_eq_of_lt x.pos.isLt]

/-- The records of branches elsewhere. -/
theorem retired_elsewhere (h : List.Forall₂ RecordOf executed bs)
    (hlow : ∀ x ∈ executed, x.pos.toNat < 2 ^ 47) (hes : ∀ x ∈ executed, x.pos ≠ src) :
    ∀ b ∈ bs, b.address ≠ src := by
  induction h with
  | nil => exact List.forall_mem_nil _
  | cons hx _ ih =>
    obtain ⟨hlow, hlows⟩ := List.forall_mem_cons.mp hlow
    obtain ⟨hne, hes⟩ := List.forall_mem_cons.mp hes
    exact List.forall_mem_cons.mpr ⟨by rwa [hx.address hlow], ih hlows hes⟩

/-- What retires of the shadow: one record at the source, or none. -/
theorem OneAt.retired {taken : Bool} (h : OneAt src taken executed) (hr : Retired executed bs) :
    (taken = true ∧ ∃ bs₁ b bs₂, bs = bs₁ ++ b :: bs₂ ∧ b.address = src ∧ bs₂.length ≤ 3 ∧
      ∀ b ∈ bs₁ ++ bs₂, b.address ≠ src) ∨
    taken = false ∧ ∀ b ∈ bs, b.address ≠ src := by
  obtain ⟨hlow, es₁, x, es₂, rfl, rfl, htaken, hlen, hes⟩ := h
  have hsub {es : List Executed} {p : Executed → Prop} (hes : ∀ x ∈ es, p x) :
      ∀ x ∈ es.filter Executed.taken, p x := fun x hx => hes x (List.mem_of_mem_filter hx)
  obtain ⟨hes₁, hes₂⟩ := List.forall_mem_append.mp hes
  obtain ⟨hlow₁, hlow'⟩ := List.forall_mem_append.mp hlow
  obtain ⟨hx, hlow₂⟩ := List.forall_mem_cons.mp hlow'
  rw [Retired, List.filter_append] at hr
  cases taken with
  | false =>
    rw [List.filter_cons_of_neg (by simp [htaken]), ← List.filter_append] at hr
    exact .inr ⟨rfl, retired_elsewhere hr
      (hsub (List.forall_mem_append.mpr ⟨hlow₁, hlow₂⟩)) (hsub hes)⟩
  | true =>
    rw [List.filter_cons_of_pos htaken] at hr
    have h₁ := (List.forall₂_take_append _ _ _ hr.flip).flip
    have h' := (List.forall₂_drop_append _ _ _ hr.flip).flip
    obtain ⟨b, bs₂, hb, h₂, hdrop⟩ := List.forall₂_cons_left_iff.mp h'
    refine .inl ⟨rfl, _, b, bs₂, ?_, hb.address hx, ?_, List.forall_mem_append.mpr
      ⟨retired_elsewhere h₁ (hsub hlow₁) (hsub hes₁),
        retired_elsewhere h₂ (hsub hlow₂) (hsub hes₂)⟩⟩
    · rw [← hdrop, List.take_append_drop]
    rw [← h₂.length_eq]
    exact (List.length_filter_le ..).trans hlen

/-- Among a few other records. -/
theorem split_among (hb : b.address = src) (hamong : (bs₁ ++ b :: bs₂).Sublist us)
    (hfew : us.length ≤ (bs₁ ++ b :: bs₂).length + 28) (hlen : bs₂.length ≤ 3)
    (hothers : (atAddress src us).length = (atAddress src (bs₁ ++ b :: bs₂)).length)
    (hes : ∀ b ∈ bs₁ ++ bs₂, b.address ≠ src) :
    ∃ us₁ us₂, us = us₁ ++ b :: us₂ ∧ us₂.length ≤ 31 ∧ ∀ b ∈ us₂, b.address ≠ src := by
  obtain ⟨r₁, r₂, rfl, h₁, h₂⟩ := List.append_sublist_iff.mp hamong
  obtain ⟨s₁, s₂, rfl, hmem, hs₂⟩ := List.cons_sublist_iff.mp h₂
  obtain ⟨p, q, rfl⟩ := List.append_of_mem hmem
  have hone : (atAddress src (bs₁ ++ b :: bs₂)).length = 1 := by
    obtain ⟨hes₁, hes₂⟩ := List.forall_mem_append.mp hes
    rw [atAddress, List.filter_append, List.filter_cons_of_pos (by simpa using hb)]
    have h₁ := atAddress_eq_nil.mpr hes₁
    have h₂ := atAddress_eq_nil.mpr hes₂
    unfold atAddress at h₁ h₂
    rw [h₁, h₂]
    rfl
  have hsplit : r₁ ++ (p ++ b :: q ++ s₂) = (r₁ ++ p) ++ b :: (q ++ s₂) := by simp
  rw [hone, hsplit, atAddress, List.filter_append, List.filter_cons_of_pos (by simpa using hb),
    List.length_append, List.length_cons] at hothers
  have hlen₁ := h₁.length_le
  have hlen₂ := hs₂.length_le
  refine ⟨r₁ ++ p, q ++ s₂, hsplit, ?_, atAddress_eq_nil.mp (List.length_eq_zero_iff.mp ?_)⟩
  · simp only [List.length_append, List.length_cons] at hfew ⊢
    omega
  · unfold atAddress
    omega

end Records

/-! ## The measurement -/

section Measurement

variable {cpus : Nat → Cpu} {dev : Lbr.Module} {es₀ : List Event} {records : List Branch}
  {executed : List Executed} {taken : Bool}

/-- The ring after a part of a run. -/
theorem history_append {us : List Branch}
    (h : ((load cpus dev).run (es₀ ++ es)).log c = ((load cpus dev).run es₀).log c ++ us) :
    (((load cpus dev).run (es₀ ++ es)).cpus c).lbr.history =
      ((((load cpus dev).run es₀).cpus c).lbr.history ++ us).drop us.length := by
  rw [history_run, history_run, h, List.length_append, ← List.append_assoc, ← List.drop_drop,
    List.drop_append_of_le_length (by simp)]

/-- The last record at the source that is in the ring when the ioctl has turned the LBR off is
the one of the shadow, if there is one. -/
theorem lastAt_history {us : List Branch} {old : List Branch} (hone : OneAt src taken executed)
    (hret : Retired executed records) (hamong : records.Sublist us)
    (hfew : us.length ≤ records.length + 28)
    (hothers : (atAddress src us).length = (atAddress src records).length)
    (hold : old.length = 32) (hstale : taken = false → lastAt src old = none) :
    lastAt src ((old ++ us).drop us.length) = lastAt src records ∧
      (lastAt src records).isSome = taken := by
  rcases hone.retired hret with ⟨rfl, bs₁, b, bs₂, rfl, hb, hlen, hes⟩ | ⟨rfl, hes⟩
  · obtain ⟨us₁, us₂, rfl, hlen', hes'⟩ := split_among hb hamong hfew hlen hothers hes
    have hrecords : lastAt src (bs₁ ++ b :: bs₂) = some b :=
      lastAt_eq_some hb (List.forall_mem_append.mp hes).2
    rw [hrecords, ← List.append_assoc, List.drop_append_of_le_length]
    · exact ⟨lastAt_eq_some hb hes', rfl⟩
    · simp only [List.length_append, List.length_cons]
      omega
  · have hrecords := lastAt_eq_none.mpr hes
    have hnil : atAddress src us = [] := by
      rw [← List.length_eq_zero_iff, hothers, atAddress_eq_nil.mpr hes]
      rfl
    rw [hrecords]
    refine ⟨lastAt_eq_none.mpr fun b hb => ?_, rfl⟩
    rcases List.mem_append.mp (List.mem_of_mem_drop hb) with hb | hb
    · exact lastAt_eq_none.mp (hstale rfl) b hb
    · exact atAddress_eq_nil.mp hnil b hb

/-- On a CPU where the LBR is on, the last record at the source that is dumped is the one of the
shadow's branch. -/
theorem Measurement.moment
    (hm : Measurement c src executed ((load cpus dev).run es₀) es es' records)
    (hone : OneAt src taken executed) (hon : On c ((load cpus dev).run es₀))
    (hstale : taken = false →
      lastAt src (((load cpus dev).run es₀).cpus c).lbr.history = none) :
    (lastAt src records).isSome = taken ∧ ∃ cpu : Cpu,
      (((load cpus dev).run es₀).run (es ++ .ioctl c :: es')).dev =
          deviceIoctl cpu.rdmsr ((load cpus dev).run (es₀ ++ es)).dev ∧
        lastAt src cpu.lbr.history = lastAt src records := by
  obtain ⟨hon₁, hlog₁⟩ := hon.run hm.user
  have hund := hm.undisturbed
  have hdumped := hm.dumped
  rw [← run_append] at hon₁ hlog₁ hund hdumped
  rw [← run_append, ← List.append_assoc, run_append (es₀ ++ es)] at hund hdumped
  obtain ⟨fs₁, fs₂, rfl, -, hlog₂, hdev⟩ := takes_effect
    (P := fun s' => (s'.cpus c).select = 1 ∧
      s'.log c = ((load cpus dev).run (es₀ ++ es)).log c)
    (sched_run cpus dev (es₀ ++ es)) hon₁.idle hund hdumped Entered.silent
    (by rw [show Kernel.act _ (.ioctl c) = _ from if_pos hon₁.idle]; exact ⟨hon₁.select, rfl⟩)
  have hlog : ((load cpus dev).run (es₀ ++ (es ++ .ioctl c :: fs₁))).log c =
      ((load cpus dev).run es₀).log c ++ es.filterMap (userBranch c) := by
    rw [← hlog₁, ← hlog₂.2, ← List.append_assoc, run_append (es₀ ++ es)]
    rfl
  obtain ⟨hlast, htaken⟩ := lastAt_history hone hm.retired hm.among hm.few hm.others
    (Ring.history_length _) hstale
  rw [← history_append hlog, ← List.append_assoc, run_append (es₀ ++ es)] at hlast
  refine ⟨htaken, _, ?_, hlast⟩
  rw [← run_append, ← List.append_assoc, run_append (es₀ ++ es)]
  exact hdev

/-- All is at rest. -/
theorem on_of_quiet (hserial : Serial es₀ (load cpus dev)) (hes₀ : ∀ c, .unload c ∉ es₀)
    (hcreated : ∀ c, .step c false ∉ es₀) (hq : Quiet ((load cpus dev).run es₀)) (hc : c < 4) :
    On c ((load cpus dev).run es₀) := by
  have hw := working_run cpus dev hserial hes₀ hcreated
  obtain ⟨hdebugctl, hselect⟩ :=
    hw.quiet (sched_run cpus dev es₀) (fresh_run cpus dev es₀) hq hc
  exact ⟨hdebugctl, hselect, hq.idle (sched_run cpus dev es₀) c⟩

end Measurement

/-! ## What the script finds -/

section Lines

variable {old : List LbrReader.Line} {ring records : List Branch}

/-- The last line at this address. -/
theorem lastLine_eq (src : Ptr) (bs : List Branch) :
    ((bs.map Branch.line).filter fun l => l.addr = hex src).getLast? =
      (lastAt src bs).map Branch.line := by
  rw [List.filter_map, List.getLast?_map, lastAt]
  refine congrArg (fun l => (List.getLast? l).map Branch.line) (List.filter_congr fun b _ => ?_)
  exact decide_eq_decide.mpr hex_inj

/-- Behind lines of old, where these have nothing to say. -/
theorem lastLine_append (hold : lastAt src ring = none → ∀ l ∈ old, l.src ≠ src) :
    ((old.map LbrReader.Line.logged ++ ring.map Branch.line).filter fun l =>
      l.addr = hex src).getLast? = (lastAt src ring).map Branch.line := by
  rw [List.filter_append, List.getLast?_append, lastLine_eq]
  cases hlast : lastAt src ring with
  | some b => rfl
  | none =>
    have hnil : (old.map LbrReader.Line.logged).filter (fun l => l.addr = hex src) = [] := by
      rw [List.filter_eq_nil_iff, List.forall_mem_map]
      intro l hl
      exact fun h => hold hlast l hl (hex_inj.mp (of_decide_eq_true h))
    rw [hnil]
    rfl

/-- What there is to say of the last line, but not of what follows it. -/
theorem observed_shadow (victimInput : Int) (hlast : lastAt src ring = lastAt src records)
    (hold : lastAt src records = none → ∀ l ∈ old, l.src ≠ src) :
    let result := observed (hex src) victimInput
      (old.map LbrReader.Line.logged ++ ring.map Branch.line)
    let shadow := observed (hex src) victimInput (records.map Branch.line)
    result.notFound = (lastAt src records).isNone ∧ result.hit = shadow.hit ∧
      result.cycles = shadow.cycles := by
  simp only [observed, lastLine_append (hlast ▸ hold), lastLine_eq, hlast, Option.isNone_map,
    and_self]

end Lines

variable {b : BranchShadow} {mapped dst inputInner targetInner back : Ptr} {m : Mem Byte}
  {cells : Cells} {r : Setup} {input : BitVec 32} {mode : Bool} {builder : Builder}
  {σ : Machine.State} {stack : List Ptr} {cpus : Nat → Cpu} {dev : Lbr.Module}
  {es₀ : List Event}

/-- The records of the branches that were taken, with some information. -/
def retiredOf (executed : List Executed) : List Branch :=
  (executed.filter Executed.taken).map fun e => ⟨e.pos, e.goes, 7, 0⟩

theorem retiredOf_user (executed : List Executed) :
    ∀ e ∈ (retiredOf executed).map (Event.branch c), inKernel c e = false := by
  simp [inKernel]

/-- Branches print nothing and take no lock. -/
theorem branches_run (s : Kernel) (bs : List Branch) :
    (s.run (bs.map (.branch c))).lock = s.lock := by
  induction bs generalizing s with
  | nil => rfl
  | cons b bs ih =>
    refine (ih (s.act (.branch c b))).trans ?_
    rw [Kernel.act]
    split <;> rfl

/-- Nothing but the shadow, and the ioctl right behind it. -/
theorem measurement_alone (src : Ptr) (hs : Sched s) (hon : On c s) (hb : s.dev.lbrData.isSome)
    (hlock : s.lock = none) (executed : List Executed) :
    Measurement c src executed s ((retiredOf executed).map (.branch c))
      (List.replicate 72 (.step c true)) (retiredOf executed) ∧
      Legible c (s.run ((retiredOf executed).map (.branch c)))
        (List.replicate 72 (.step c true)) := by
  have hbranches : ((retiredOf executed).map (.branch c)).filterMap (userBranch c) =
      retiredOf executed := by
    rw [retiredOf, List.map_map, List.filterMap_map]
    refine (List.filterMap_congr fun e _ => ?_).trans (congrFun List.filterMap_eq_map _)
    exact if_pos ⟨rfl, BitVec.getLsbD_zero⟩
  have hrun := hon.run (retiredOf_user executed)
  have hs' : Sched (s.run ((retiredOf executed).map (.branch c))) :=
    run_induction (fun s' e _ h => h.change (Kernel.change s' e)) hs
  have hb' : (s.run ((retiredOf executed).map (.branch c))).dev.lbrData.isSome := by
    rw [buffer_run]
    exact hb
  have hlock' := (branches_run (c := c) s (retiredOf executed)).trans hlock
  have halone {n : Nat} (hn : n ≤ 72) := alone_steps hs' hrun.1.idle hb' hlock' hn
  refine ⟨{
    user := retiredOf_user executed
    retired := List.forall₂_map_right_iff.mpr (List.forall₂_same.mpr fun e _ =>
      ⟨rfl, rfl, BitVec.getLsbD_zero⟩)
    among := by rw [hbranches]
    few := by rw [hbranches]; exact Nat.le_add_right ..
    others := by rw [hbranches]
    undisturbed := by
      rw [run_append]
      exact onlyBy_steps _ fun n hn => (halone hn.le).running
    dumped := by
      rw [run_append, run_cons]
      exact (halone (Nat.le_refl 72)).dumped }, onlyBy_steps _ fun n hn => (halone hn.le).running, ?_⟩
  have hsum : ((deviceIoctlOps.take 72).map Op.lines).sum = 34 := by decide
  have hlines := (halone (Nat.le_refl 72)).lines
  omega

/-- The threads of the loading have done their work. -/
theorem on_loading : On 0 ((load (fun _ => emptyCpu) emptyModule).run loading) :=
  on_of_quiet (by decide +kernel) (by simp [loading, threads]) (by simp [loading, threads])
    (by decide +kernel) (by decide)

/-- A jne shadow, and its call with the input 3. -/
theorem exists_jne : ∃ b cells r,
    prepareAttack 0x401010 0x401040 3 false 0x1000 0x2000 = .ok (b, cells) ∧
      b.setup .jne 0x7f0000000000 (fun _ => 0) cells = .ok r ∧ Disjoint r ∧
      ShortDisplacements r ∧ Low r ∧
      b.Called 3 r { rip := r.entry, eax := 3, zf := false, regs := fun _ => 0, stack := [0],
                     mem := r.finalized.mem } ∧ 0x10000000 ≤ r.shadowSrc.toNat := by
  have hrun : ((prepareAttack 0x401010 0x401040 3 false 0x1000 0x2000).bind fun x =>
      (x.1.setup .jne 0x7f0000000000 (fun _ => 0) x.2).map fun r =>
        (decide (Low r ∧ 0x10000000 ≤ r.shadowSrc.toNat), readJne x.1 r)) =
      .ok (true, ⟨0x401010, 0x401040, false, 0, 1⟩, true, [0x2e, 0x1e, 0x7d], [0x7f0000400fff,
        0x7f0000400fff, 0x7f0000401007, 0x7f000040100e, 0x7f0000401047, 0x7f00004010c6]) := by
    decide +kernel
  obtain ⟨b, cells, r, hb, hr, hread⟩ :=
    exists_of_setup (g := fun b r =>
      (decide (Low r ∧ 0x10000000 ≤ r.shadowSrc.toNat), readJne b r)) hrun
  obtain ⟨hplace, hread⟩ := Prod.mk.inj hread
  obtain ⟨hlow, hsrc⟩ : Low r ∧ 0x10000000 ≤ r.shadowSrc.toNat := of_decide_eq_true hplace
  obtain ⟨hb', hread⟩ := Prod.mk.inj hread
  obtain ⟨hap, hread⟩ := Prod.mk.inj hread
  obtain ⟨hdisp, -⟩ := Prod.mk.inj hread
  have hap : Disjoint r := of_decide_eq_true hap
  have hready := jneForward_ready hr (by rw [hb']; decide) hap
  have hshort := jneForward_short hready hdisp (by decide) (by decide) (by decide)
  have hdirect : b.useIndirectTargets = false := by rw [hb']
  exact ⟨b, cells, r, hb, hr, hap, hshort, hlow, {
    rip := rfl
    code := fun _ _ _ => rfl
    direct := fun _ => rfl
    indirect := fun h => by rw [hdirect] at h; cases h }, hsrc⟩

end BS.Attack
