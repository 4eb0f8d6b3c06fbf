import Neobird64.SmpInit
import Neobird64.Theorems.SegmentRace
import Mathlib.Algebra.Order.BigOperators.Group.List
import Mathlib.Algebra.Order.Group.Nat
import Mathlib.Data.List.Dedup

/-! `smp_init` starts every processor: whatever turns they take and whatever interrupts come, their programs are over after a
    bounded number of steps, and then each application processor runs, unless a segment has faulted or its local APIC has the
    identifier 0. -/

namespace Neobird64
open X86 Trace

section
variable {Cpu : Type}

/-- The steps in `gdt_init` and in interrupts. -/
def segEventsOf (es : List (BootEvent Cpu)) : List (SegEvent Cpu) :=
  es.filterMap fun e => match e.step with
    | .seg step => some ⟨e.cpu, step⟩
    | _ => none

/-- The step belongs to the program of a processor, not to an interrupt. -/
def BootStep.isProgram : BootStep → Bool
  | .seg (.interrupt _) | .seg .iretq => false
  | _ => true

/-- The steps that a processor has before it, of which `done` of `gdt_init` are behind it. -/
def BootPhase.stepsLeft (done : Nat) : BootPhase → Nat
  | .entered => 60
  | .gdtInit => 59 - done
  | .idtLoaded => 2
  | .ctxSet => 1
  | .running | .returned => 0

def stepsLeft (phase : BootPhase) (c : SegCpu) : Nat := if c.faulted then 0 else phase.stepsLeft c.done

def BootState.work (cpus : List Cpu) (bsp : Cpu) (s : BootState Cpu) : Nat :=
  cpus.length - s.started + ((bsp :: cpus).map fun cpu => stepsLeft (s.phase cpu) (s.segs.cpu cpu)).sum

/-- At the call of `gdt_init` in `_start`. -/
structure AtBoot (bsp : Cpu) (s : BootState Cpu) : Prop where
  started : s.started = 0
  boot : s.phase bsp = .gdtInit
  entered : ∀ cpu, cpu ≠ bsp → s.phase cpu = .entered
  segs : ∀ cpu, AtGdtInit (s.segs.cpu cpu)

/-- Every application processor has come to its end in `ap_trampoline`. -/
structure AllStarted (cpus : List Cpu) (bsp : Cpu) (lapicId : Cpu → BitVec 32) (s : BootState Cpu) : Prop where
  started : s.started = cpus.length
  returned : ∀ cpu ∈ cpus, cpu ≠ bsp → lapicId cpu = 0 → s.phase cpu = .returned
  running : ∀ cpu ∈ cpus, cpu ≠ bsp → lapicId cpu ≠ 0 → s.phase cpu = .running ∨ (s.segs.cpu cpu).faulted = true

end

section
variable {Cpu : Type} [DecidableEq Cpu] {cpus : List Cpu} {bsp cpu : Cpu} {lapicId : Cpu → BitVec 32} {tss gdtAddr : Word}
variable {others : Word → Nat → Descriptor} {sIsr : Nat → Word} {s s' t : BootState Cpu} {e : BootEvent Cpu}
variable {es : List (BootEvent Cpu)} {phase phase' : BootPhase} {segs segs' : SegState Cpu}

/-! ### One step -/

/-- What a step does: in `gdt_init` or an interrupt, a round of `smp_init`, or another call. -/
theorem bootStep_cases (h : bootStep cpus bsp lapicId tss gdtAddr others (idtInit sIsr) s e = some s') :
    (e.cpu = bsp ∨ e.cpu ∈ cpus.take s.started) ∧
    ((∃ step segs', e.step = .seg step ∧ segAllowed (s.phase e.cpu) step = true ∧
        segStep tss gdtAddr others (idtInit sIsr) s.segs ⟨e.cpu, step⟩ = some segs' ∧ s' = { s with segs := segs' }) ∨
      (e.step = .start ∧ e.cpu = bsp ∧ cpus.length ≠ 1 ∧ s.started < cpus.length ∧ s' = { s with started := s.started + 1 }) ∨
      ∃ phase', s.OnCourse e.cpu ∧ bootPhase (decide (e.cpu = bsp)) (lapicId e.cpu)
          (decide ((s.segs.cpu e.cpu).done = (gdtInitSteps tss gdtAddr).length)) (s.phase e.cpu) e.step = some phase' ∧
        s' = s.setPhase e.cpu phase') := by
  unfold bootStep at h
  split at h
  · next hcpu =>
    refine ⟨hcpu, ?_⟩
    split at h
    · next step hkind =>
      split at h
      · next hallowed =>
        obtain ⟨segs', hstep, rfl⟩ := Option.map_eq_some_iff.mp h
        exact Or.inl ⟨step, segs', hkind, hallowed, hstep, rfl⟩
      · cases h
    · next hkind =>
      split at h
      · next hready =>
        cases h
        exact Or.inr (Or.inl ⟨hkind, hready.1, hready.2.2.2.1, hready.2.2.2.2, rfl⟩)
      · cases h
    · split at h
      · next hcourse =>
        obtain ⟨phase', hphase, rfl⟩ := Option.map_eq_some_iff.mp h
        exact Or.inr (Or.inr ⟨phase', hcourse, hphase, rfl⟩)
      · cases h
  · cases h

/-- The calls in `_start` and `ap_trampoline`. -/
theorem bootPhase_cases {boot through : Bool} {id : BitVec 32} {st : BootStep} (h : bootPhase boot id through phase st = some phase') :
    (phase = .entered ∧ st = .enter ∧ phase' = if id = 0 then .returned else .gdtInit) ∨
    (phase = .gdtInit ∧ st = .idtLoad ∧ through = true ∧ phase' = .idtLoaded) ∨
    (phase = .idtLoaded ∧ st = .vmmSetCtx ∧ phase' = .ctxSet) ∨
    (phase = .ctxSet ∧ st = .initApicAp ∧ boot = false ∧ phase' = .running) := by
  rw [bootPhase.eq_def] at h
  split at h
  · cases h
    exact Or.inl ⟨rfl, rfl, rfl⟩
  · split at h
    · next hover =>
      cases h
      exact Or.inr (Or.inl ⟨rfl, rfl, hover, rfl⟩)
    · cases h
  · cases h
    exact Or.inr (Or.inr (Or.inl ⟨rfl, rfl, rfl⟩))
  · split at h
    · cases h
    · next hboot =>
      cases h
      exact Or.inr (Or.inr (Or.inr ⟨rfl, rfl, Bool.eq_false_iff.mpr hboot, rfl⟩))
  · cases h

/-- What a step in `gdt_init` or an interrupt changes of the processor that makes it. -/
theorem segStep_cases {e : SegEvent Cpu} (h : segStep tss gdtAddr others (idtInit sIsr) segs e = some segs') :
    (segs.cpu e.cpu).faulted = false ∧ (∀ other, other ≠ e.cpu → segs'.cpu other = segs.cpu other) ∧
    (∀ st, e.step = .init st → (gdtInitSteps tss gdtAddr)[(segs.cpu e.cpu).done]? = some st) ∧
    ((segs'.cpu e.cpu).faulted = true ∧ (segs'.cpu e.cpu).done = (segs.cpu e.cpu).done ∧
        (segs'.cpu e.cpu).frames = (segs.cpu e.cpu).frames ∨
      (segs'.cpu e.cpu).faulted = false ∧
        ((∃ st, e.step = .init st) ∧ (segs'.cpu e.cpu).done = (segs.cpu e.cpu).done + 1 ∧
            (segs'.cpu e.cpu).frames = (segs.cpu e.cpu).frames ∨
          (∀ st, e.step ≠ .init st) ∧ (segs'.cpu e.cpu).done = (segs.cpu e.cpu).done)) := by
  unfold segStep at h
  split at h
  · cases h
  next hno =>
  have hrun : (segs.cpu e.cpu).faulted = false := Bool.eq_false_iff.mpr hno
  obtain ⟨⟨c', r⟩, hnext, rfl⟩ := Option.map_eq_some_iff.mp h
  obtain ⟨hsame, hdone⟩ := segNext_cpu hnext
  refine ⟨hrun, fun other hne => put_of_ne hne, fun st hst => ?_, ?_⟩
  · rcases hdone with ⟨st', hst', hlook, -⟩ | ⟨hnot, -⟩
    · rw [hst] at hst'
      cases hst'
      exact hlook
    · exact absurd hst (hnot st)
  · cases r with
    | none =>
      rw [put_none_self]
      exact Or.inl ⟨rfl, rfl, rfl⟩
    | some x =>
      obtain ⟨gdt', file'⟩ := x
      rw [put_some_self]
      refine Or.inr ⟨hsame.trans hrun, ?_⟩
      rcases hdone with ⟨st, hst, -, hd, hframes⟩ | hnot
      · exact Or.inl ⟨⟨st, hst⟩, hd, hframes⟩
      · exact Or.inr hnot

/-! ### The number of steps -/

theorem stepsLeft_of_faulted {c : SegCpu} (h : c.faulted = true) : stepsLeft phase c = 0 := by
  rw [stepsLeft, if_pos h]

theorem stepsLeft_of_not {c : SegCpu} (h : c.faulted = false) : stepsLeft phase c = phase.stepsLeft c.done := by
  rw [stepsLeft, if_neg (by rw [h]; exact Bool.false_ne_true)]

theorem segAllowed_cases {step : SegStep} (h : segAllowed phase step = true) : phase = .gdtInit ∧ (∃ st, step = .init st) ∨
    (phase = .idtLoaded ∨ phase = .ctxSet ∨ phase = .running) ∧ (∀ st, step ≠ .init st) ∧
      (BootStep.seg step).isProgram = false := by
  cases step with
  | init st => cases phase <;> simp_all [segAllowed]
  | interrupt vector => cases phase <;> simp_all [segAllowed, BootStep.isProgram]
  | iretq => cases phase <;> simp_all [segAllowed, BootStep.isProgram]

/-- A step of the program leaves less, and a step of an interrupt no more. -/
theorem stepsLeft_seg {step : SegStep} (hallowed : segAllowed (s.phase cpu) step = true)
    (h : segStep tss gdtAddr others (idtInit sIsr) s.segs ⟨cpu, step⟩ = some segs') :
    stepsLeft (s.phase cpu) (segs'.cpu cpu) + (if (BootStep.seg step).isProgram then 1 else 0) ≤
      stepsLeft (s.phase cpu) (s.segs.cpu cpu) := by
  obtain ⟨hrun, -, hlook, hend⟩ := segStep_cases h
  rw [stepsLeft_of_not hrun]
  rcases segAllowed_cases hallowed with ⟨hphase, st, rfl⟩ | ⟨hphase, hnot, hprogram⟩
  · have hone : (if (BootStep.seg (.init st)).isProgram then 1 else 0) = 1 := rfl
    have hlt : (s.segs.cpu cpu).done < 56 := (List.getElem?_eq_some_iff.mp (hlook st rfl)).1
    rw [hone, hphase]
    rcases hend with ⟨hf, -⟩ | ⟨hf, ⟨-, hdone, -⟩ | ⟨hnot, -⟩⟩
    · rw [stepsLeft_of_faulted hf]
      simp only [BootPhase.stepsLeft]
      omega
    · rw [stepsLeft_of_not hf]
      simp only at hdone
      simp only [BootPhase.stepsLeft, hdone]
      omega
    · exact absurd rfl (hnot st)
  · rw [hprogram]
    rcases hend with ⟨hf, -⟩ | ⟨hf, ⟨⟨st, hst⟩, -⟩ | ⟨-, hdone⟩⟩
    · rw [stepsLeft_of_faulted hf]
      exact Nat.zero_le _
    · exact absurd hst (hnot st)
    · rw [stepsLeft_of_not hf, hdone]
      exact le_refl _

/-- A call around `gdt_init` leaves less. -/
theorem stepsLeft_phase {boot : Bool} {id : BitVec 32} {c : SegCpu} {st : BootStep} (hf : c.faulted = false)
    (h : bootPhase boot id (decide (c.done = (gdtInitSteps tss gdtAddr).length)) phase st = some phase') :
    stepsLeft phase' c + 1 ≤ stepsLeft phase c := by
  rw [stepsLeft_of_not hf, stepsLeft_of_not hf]
  rcases bootPhase_cases h with ⟨rfl, -, rfl⟩ | ⟨rfl, -, hover, rfl⟩ | ⟨rfl, -, rfl⟩ | ⟨rfl, -, -, rfl⟩
  · split <;> simp only [BootPhase.stepsLeft] <;> omega
  · have hdone : c.done = 56 := of_decide_eq_true hover
    simp only [BootPhase.stepsLeft, hdone]
    omega
  · exact le_refl _
  · exact le_refl _

omit [DecidableEq Cpu] in
/-- One summand gets smaller, or none. -/
theorem sum_map_le {l : List Cpu} {f g : Cpu → Nat} (hmem : cpu ∈ l) (hother : ∀ c, c ≠ cpu → f c = g c) {p : Bool}
    (hself : f cpu + (if p then 1 else 0) ≤ g cpu) : (l.map f).sum + (if p then 1 else 0) ≤ (l.map g).sum := by
  have hle : ∀ c ∈ l, f c ≤ g c := fun c _ => by
    by_cases hc : c = cpu
    · rw [hc]
      omega
    · rw [hother c hc]
  cases p with
  | false => exact List.sum_le_sum hle
  | true => exact List.sum_lt_sum _ _ hle ⟨cpu, hmem, hself⟩

theorem work_step (h : bootStep cpus bsp lapicId tss gdtAddr others (idtInit sIsr) s e = some s') :
    s'.work cpus bsp + (if e.step.isProgram then 1 else 0) ≤ s.work cpus bsp := by
  obtain ⟨hcpu, hcases⟩ := bootStep_cases h
  have hmem : e.cpu ∈ bsp :: cpus := List.mem_cons.mpr (hcpu.imp id List.mem_of_mem_take)
  rcases hcases with ⟨step, segs', hkind, hallowed, hstep, rfl⟩ | ⟨hkind, -, -, hlt, rfl⟩ | ⟨phase', hcourse, hphase, rfl⟩
  · obtain ⟨-, hother, -⟩ := segStep_cases hstep
    have hsum := sum_map_le (f := fun cpu => stepsLeft (s.phase cpu) (segs'.cpu cpu))
      (g := fun cpu => stepsLeft (s.phase cpu) (s.segs.cpu cpu)) hmem (fun c hc => by rw [hother c hc])
      (stepsLeft_seg hallowed hstep)
    rw [hkind]
    simp only [BootState.work]
    omega
  · simp only [BootState.work, hkind, BootStep.isProgram, if_true]
    omega
  · have hself : stepsLeft ((s.setPhase e.cpu phase').phase e.cpu) (s.segs.cpu e.cpu) + (if e.step.isProgram then 1 else 0) ≤
        stepsLeft (s.phase e.cpu) (s.segs.cpu e.cpu) := by
      have hle := stepsLeft_phase hcourse.2 hphase
      rw [BootState.setPhase_self]
      split <;> omega
    have hsum := sum_map_le (f := fun cpu => stepsLeft ((s.setPhase e.cpu phase').phase cpu) (s.segs.cpu cpu))
      (g := fun cpu => stepsLeft (s.phase cpu) (s.segs.cpu cpu)) hmem (fun c hc => by rw [s.setPhase_of_ne phase' hc]) hself
    simp only [BootState.work, BootState.setPhase_started, BootState.setPhase_segs]
    omega

omit [DecidableEq Cpu] in
theorem work_atBoot (cpus : List Cpu) (hstart : AtBoot bsp s) : s.work cpus bsp ≤ 61 * cpus.length + 59 := by
  have hboot : stepsLeft (s.phase bsp) (s.segs.cpu bsp) = 59 := by
    rw [stepsLeft_of_not (hstart.segs bsp).2.2.1, hstart.boot, (hstart.segs bsp).1]
    rfl
  have hle : ∀ cpu, stepsLeft (s.phase cpu) (s.segs.cpu cpu) ≤ 60 := fun cpu => by
    rw [stepsLeft_of_not (hstart.segs cpu).2.2.1]
    cases s.phase cpu <;> simp only [BootPhase.stepsLeft] <;> omega
  have hsum : (cpus.map fun cpu => stepsLeft (s.phase cpu) (s.segs.cpu cpu)).sum ≤ cpus.length * 60 := by
    have hcard := List.sum_le_card_nsmul (cpus.map fun cpu => stepsLeft (s.phase cpu) (s.segs.cpu cpu)) 60
      (by rintro _ hx; obtain ⟨cpu, -, rfl⟩ := List.mem_map.mp hx; exact hle cpu)
    rwa [List.length_map, nsmul_eq_mul, Nat.cast_id] at hcard
  rw [BootState.work, List.map_cons, List.sum_cons, hboot]
  omega

/-! ### All processors -/

/-- The processors in `gdt_init` and in interrupts, on their own. -/
theorem run_segs (h : run (bootStep cpus bsp lapicId tss gdtAddr others (idtInit sIsr)) s es = some t) :
    run (segStep tss gdtAddr others (idtInit sIsr)) s.segs (segEventsOf es) = some t.segs := by
  induction es generalizing s with
  | nil =>
    cases h
    rfl
  | cons e es ih =>
    obtain ⟨u, hu, hrun⟩ := run_cons_eq_some.mp h
    have hrest := ih hrun
    obtain ⟨cpu, step⟩ := e
    obtain ⟨-, ⟨step', segs', hkind, -, hstep, rfl⟩ | ⟨hkind, -, -, -, rfl⟩ | ⟨phase', -, hphase, rfl⟩⟩ := bootStep_cases hu
    · cases hkind
      exact run_cons_eq_some.mpr ⟨segs', hstep, hrest⟩
    · cases hkind
      exact hrest
    · rcases bootPhase_cases hphase with ⟨-, hst, -⟩ | ⟨-, hst, -⟩ | ⟨-, hst, -⟩ | ⟨-, hst, -⟩ <;> cases hst <;> exact hrest

/-- What holds of all processors while they are started. -/
structure Starting (cpus : List Cpu) (bsp : Cpu) (lapicId : Cpu → BitVec 32) (s : BootState Cpu) : Prop where
  boot : s.phase bsp ≠ .entered ∧ s.phase bsp ≠ .returned ∧ s.phase bsp ≠ .running
  fresh : ∀ cpu, s.phase cpu = .entered → AtGdtInit (s.segs.cpu cpu)
  inInit : ∀ cpu, s.phase cpu = .gdtInit → (s.segs.cpu cpu).done ≤ 56 ∧ (s.segs.cpu cpu).frames = []
  zero : ∀ cpu, cpu ≠ bsp → lapicId cpu = 0 → s.phase cpu = .entered ∨ s.phase cpu = .returned
  other : ∀ cpu, lapicId cpu ≠ 0 → s.phase cpu ≠ .returned
  /-- No processor is ahead of `smp_init`. -/
  ahead : ∀ cpu, s.phase cpu ≠ .entered → cpu = bsp ∨ cpu ∈ cpus.take s.started
  started : s.started ≤ cpus.length

omit [DecidableEq Cpu] in
theorem AtBoot.starting (h : AtBoot bsp s) : Starting cpus bsp lapicId s where
  boot := by
    rw [h.boot]
    decide
  fresh cpu _ := h.segs cpu
  inInit cpu _ := by
    obtain ⟨hdone, hframes, -⟩ := h.segs cpu
    exact ⟨by omega, hframes⟩
  zero cpu hne _ := Or.inl (h.entered cpu hne)
  other cpu _ := by
    by_cases hcpu : cpu = bsp
    · rw [hcpu, h.boot]
      decide
    · rw [h.entered cpu hcpu]
      decide
  ahead cpu hne := by
    by_contra hnot
    exact hne (h.entered cpu fun hcpu => hnot (Or.inl hcpu))
  started := by
    rw [h.started]
    exact Nat.zero_le _

theorem Starting.step (hs : Starting cpus bsp lapicId s)
    (h : bootStep cpus bsp lapicId tss gdtAddr others (idtInit sIsr) s e = some s') : Starting cpus bsp lapicId s' := by
  obtain ⟨hcpu, hcases⟩ := bootStep_cases h
  rcases hcases with ⟨step, segs', -, hallowed, hstep, rfl⟩ | ⟨-, -, -, hlt, rfl⟩ | ⟨phase', hcourse, hphase, rfl⟩
  · obtain ⟨-, hother, hlook, hend⟩ := segStep_cases hstep
    refine { hs with fresh := fun cpu hp => ?_, inInit := fun cpu hp => ?_ }
    · have hne : cpu ≠ e.cpu := by
        rintro rfl
        rcases segAllowed_cases hallowed with ⟨hp', -⟩ | ⟨hp' | hp' | hp', -⟩ <;> rw [hp'] at hp <;> cases hp
      simp only [hother cpu hne]
      exact hs.fresh cpu hp
    · by_cases hc : cpu = e.cpu
      · subst hc
        obtain ⟨hle, hframes⟩ := hs.inInit _ hp
        rcases segAllowed_cases hallowed with ⟨-, st, hst⟩ | ⟨hp' | hp' | hp', -⟩
        · have hlt : (s.segs.cpu e.cpu).done < 56 := (List.getElem?_eq_some_iff.mp (hlook st hst)).1
          rcases hend with ⟨-, hdone, hf⟩ | ⟨-, ⟨-, hdone, hf⟩ | ⟨hnot, -⟩⟩
          · simp only at hdone hf
            simp only [hdone, hf]
            exact ⟨hle, hframes⟩
          · simp only at hdone hf
            simp only [hdone, hf]
            exact ⟨hlt, hframes⟩
          · exact absurd hst (hnot st)
        all_goals
          rw [hp'] at hp
          cases hp
      · simp only [hother cpu hc]
        exact hs.inInit cpu hp
  · refine { hs with ahead := fun cpu hp => ?_, started := hlt }
    exact (hs.ahead cpu hp).imp id fun hmem => List.take_subset_take_left cpus (Nat.le_succ _) hmem
  · have hself := s.setPhase_self e.cpu phase'
    have hne : ∀ {cpu}, cpu ≠ e.cpu → (s.setPhase e.cpu phase').phase cpu = s.phase cpu := s.setPhase_of_ne phase'
    have hnew : phase' ≠ .entered := by
      rcases bootPhase_cases hphase with ⟨-, -, rfl⟩ | ⟨-, -, -, rfl⟩ | ⟨-, -, rfl⟩ | ⟨-, -, -, rfl⟩
      · split <;> nofun
      all_goals nofun
    have hreturned : phase' = .returned → s.phase e.cpu = .entered ∧ lapicId e.cpu = 0 := by
      rcases bootPhase_cases hphase with ⟨hp, -, rfl⟩ | ⟨-, -, -, rfl⟩ | ⟨-, -, rfl⟩ | ⟨-, -, -, rfl⟩
      · split
        · next hid => exact fun _ => ⟨hp, hid⟩
        · nofun
      all_goals nofun
    refine ⟨?_, fun cpu hp => ?_, fun cpu hp => ?_, fun cpu hb hid => ?_, fun cpu hid => ?_, fun cpu hp => ?_, hs.started⟩
    · by_cases hb : bsp = e.cpu
      · rw [hb, hself]
        refine ⟨hnew, fun hr => hs.boot.1 (by rw [hb]; exact (hreturned hr).1), ?_⟩
        rcases bootPhase_cases hphase with ⟨-, -, rfl⟩ | ⟨-, -, -, rfl⟩ | ⟨-, -, rfl⟩ | ⟨-, -, hboot, rfl⟩
        · split <;> nofun
        · nofun
        · nofun
        · exact absurd hb.symm (of_decide_eq_false hboot)
      · rw [hne hb]
        exact hs.boot
    · by_cases hc : cpu = e.cpu
      · rw [hc, hself] at hp
        exact absurd hp hnew
      · rw [hne hc] at hp
        exact hs.fresh cpu hp
    · by_cases hc : cpu = e.cpu
      · rw [hc, hself] at hp
        rcases bootPhase_cases hphase with ⟨hp', -, -⟩ | ⟨-, -, -, rfl⟩ | ⟨-, -, rfl⟩ | ⟨-, -, -, rfl⟩
        · obtain ⟨hdone, hframes, -⟩ := hs.fresh e.cpu hp'
          rw [hc, BootState.setPhase_segs]
          exact ⟨by omega, hframes⟩
        all_goals cases hp
      · rw [hne hc] at hp
        exact hs.inInit cpu hp
    · by_cases hc : cpu = e.cpu
      · subst hc
        rw [hself]
        rcases bootPhase_cases hphase with ⟨-, -, rfl⟩ | ⟨hp, -⟩ | ⟨hp, -⟩ | ⟨hp, -⟩
        · exact Or.inr (if_pos hid)
        all_goals
          rcases hs.zero _ hb hid with hz | hz <;> rw [hz] at hp <;> cases hp
      · rw [hne hc]
        exact hs.zero cpu hb hid
    · by_cases hc : cpu = e.cpu
      · subst hc
        rw [hself]
        exact fun hr => hid (hreturned hr).2
      · rw [hne hc]
        exact hs.other cpu hid
    · by_cases hc : cpu = e.cpu
      · exact hc ▸ hcpu
      · rw [hne hc] at hp
        exact hs.ahead cpu hp

/-! ### The steps that are possible -/

theorem exists_init_step (tss gdtAddr : Word) (others : Word → Nat → Descriptor) (sIsr : Nat → Word)
    (hf : (segs.cpu cpu).faulted = false) (hlt : (segs.cpu cpu).done < 56) :
    ∃ st segs', (gdtInitSteps tss gdtAddr)[(segs.cpu cpu).done]? = some st ∧
      segStep tss gdtAddr others (idtInit sIsr) segs ⟨cpu, .init st⟩ = some segs' := by
  obtain ⟨st, hst⟩ : ∃ st, (gdtInitSteps tss gdtAddr)[(segs.cpu cpu).done]? = some st :=
    ⟨_, List.getElem?_eq_getElem (hlt : (segs.cpu cpu).done < (gdtInitSteps tss gdtAddr).length)⟩
  obtain ⟨x, hx⟩ : ∃ x, segNext tss gdtAddr others (idtInit sIsr) segs.gdt (segs.cpu cpu) (.init st) = some x := by
    rw [segNext.eq_def]
    simp only [if_pos hst]
    cases st <;> exact ⟨_, rfl⟩
  refine ⟨st, segs.put cpu x.1 x.2, hst, ?_⟩
  unfold segStep
  simp only [hf, hx, Bool.false_eq_true, if_false, Option.map_some]

theorem exists_iretq (hf : (segs.cpu cpu).faulted = false) (hframes : (segs.cpu cpu).frames ≠ []) :
    ∃ segs', segStep tss gdtAddr others (idtInit sIsr) segs ⟨cpu, .iretq⟩ = some segs' := by
  obtain ⟨x, hx⟩ : ∃ x, segNext tss gdtAddr others (idtInit sIsr) segs.gdt (segs.cpu cpu) .iretq = some x := by
    obtain ⟨⟨cs, ss⟩, frames, hcons⟩ := List.exists_cons_of_ne_nil hframes
    rw [segNext.eq_def]
    simp only [hcons]
    exact ⟨_, rfl⟩
  refine ⟨segs.put cpu x.1 x.2, ?_⟩
  unfold segStep
  simp only [hf, hx, Bool.false_eq_true, if_false, Option.map_some]

theorem bootStep_seg {step : SegStep} (hcpu : cpu = bsp ∨ cpu ∈ cpus.take s.started) (hallowed : segAllowed (s.phase cpu) step = true)
    (h : segStep tss gdtAddr others (idtInit sIsr) s.segs ⟨cpu, step⟩ = some segs') :
    bootStep cpus bsp lapicId tss gdtAddr others (idtInit sIsr) s ⟨cpu, .seg step⟩ = some { s with segs := segs' } := by
  unfold bootStep
  simp only [if_pos hcpu, if_pos hallowed, h, Option.map_some]

theorem bootStep_phase {st : BootStep} (hcpu : cpu = bsp ∨ cpu ∈ cpus.take s.started) (hcourse : s.OnCourse cpu)
    (h : bootPhase (decide (cpu = bsp)) (lapicId cpu) (decide ((s.segs.cpu cpu).done = (gdtInitSteps tss gdtAddr).length))
      (s.phase cpu) st = some phase') :
    bootStep cpus bsp lapicId tss gdtAddr others (idtInit sIsr) s ⟨cpu, st⟩ = some (s.setPhase cpu phase') := by
  have hst : (∀ step, st ≠ .seg step) ∧ st ≠ .start := by
    rcases bootPhase_cases h with ⟨-, rfl, -⟩ | ⟨-, rfl, -⟩ | ⟨-, rfl, -⟩ | ⟨-, rfl, -⟩ <;> exact ⟨nofun, nofun⟩
  unfold bootStep
  rw [if_pos hcpu]
  split
  · next step hkind => exact absurd hkind (hst.1 step)
  · next hkind => exact absurd hkind hst.2
  · rw [if_pos hcourse, h]
    rfl

/-- A step that is not an interrupt. -/
def CanGoOn (cpus : List Cpu) (bsp : Cpu) (lapicId : Cpu → BitVec 32) (tss gdtAddr : Word)
    (others : Word → Nat → Descriptor) (sIsr : Nat → Word) (s : BootState Cpu) : Prop :=
  ∃ e s', (∀ vector, e.step ≠ .seg (.interrupt vector)) ∧
    bootStep cpus bsp lapicId tss gdtAddr others (idtInit sIsr) s e = some s'

/-- A processor that has not faulted goes on until it is in the loop of `smp_init` or at its end. -/
theorem Starting.canGoOn (hs : Starting cpus bsp lapicId s) (hcpu : cpu = bsp ∨ cpu ∈ cpus.take s.started)
    (hf : (s.segs.cpu cpu).faulted = false) (hphase : s.phase cpu ≠ .returned ∧ s.phase cpu ≠ .running)
    (hboot : s.phase cpu = .ctxSet → (s.segs.cpu cpu).frames = [] → cpu ≠ bsp) :
    CanGoOn cpus bsp lapicId tss gdtAddr others sIsr s := by
  have hreturn : segAllowed (s.phase cpu) .iretq = true → (s.segs.cpu cpu).frames ≠ [] →
      CanGoOn cpus bsp lapicId tss gdtAddr others sIsr s := fun hallowed hframes => by
    obtain ⟨segs', hstep⟩ := exists_iretq hf hframes
    exact ⟨⟨cpu, .seg .iretq⟩, _, nofun, bootStep_seg hcpu hallowed hstep⟩
  cases hp : s.phase cpu with
  | entered =>
    have hat := hs.fresh cpu hp
    exact ⟨⟨cpu, .enter⟩, _, nofun, bootStep_phase hcpu ⟨hat.2.1, hf⟩ (by rw [hp]; rfl)⟩
  | gdtInit =>
    obtain ⟨hle, hframes⟩ := hs.inInit cpu hp
    rcases Nat.lt_or_ge (s.segs.cpu cpu).done 56 with hlt | hge
    · obtain ⟨st, segs', -, hstep⟩ := exists_init_step _ _ _ _ hf hlt
      exact ⟨⟨cpu, .seg (.init st)⟩, _, nofun, bootStep_seg hcpu (by rw [hp]; rfl) hstep⟩
    · have hover : decide ((s.segs.cpu cpu).done = (gdtInitSteps tss gdtAddr).length) = true := decide_eq_true (by
        rw [length_gdtInitSteps]
        omega)
      exact ⟨⟨cpu, .idtLoad⟩, _, nofun, bootStep_phase hcpu ⟨hframes, hf⟩ (by rw [hp, hover]; rfl)⟩
  | idtLoaded =>
    by_cases hframes : (s.segs.cpu cpu).frames = []
    · exact ⟨⟨cpu, .vmmSetCtx⟩, _, nofun, bootStep_phase hcpu ⟨hframes, hf⟩ (by rw [hp]; rfl)⟩
    · exact hreturn (by rw [hp]; rfl) hframes
  | ctxSet =>
    by_cases hframes : (s.segs.cpu cpu).frames = []
    · have hne := hboot hp hframes
      exact ⟨⟨cpu, .initApicAp⟩, _, nofun, bootStep_phase hcpu ⟨hframes, hf⟩ (by rw [hp, decide_eq_false hne]; rfl)⟩
    · exact hreturn (by rw [hp]; rfl) hframes
  | returned => exact absurd hp hphase.1
  | running => exact absurd hp hphase.2

theorem bootStep_start (hphase : s.phase bsp = .ctxSet) (hcourse : s.OnCourse bsp) (hmany : cpus.length ≠ 1)
    (hlt : s.started < cpus.length) : bootStep cpus bsp lapicId tss gdtAddr others (idtInit sIsr) s ⟨bsp, .start⟩ =
      some { s with started := s.started + 1 } := by
  unfold bootStep
  rw [if_pos (Or.inl rfl)]
  exact if_pos ⟨rfl, hphase, hcourse, hmany, hlt⟩

/-- When nothing but interrupts can go on, every processor has been started and has come to its end. -/
theorem Starting.allStarted (hs : Starting cpus bsp lapicId s) (hmany : cpus.length ≠ 1)
    (hbsp : (s.segs.cpu bsp).faulted = false) (hstuck : ¬CanGoOn cpus bsp lapicId tss gdtAddr others sIsr s) :
    AllStarted cpus bsp lapicId s := by
  have hctx : s.phase bsp = .ctxSet ∧ (s.segs.cpu bsp).frames = [] := by
    by_contra hnot
    exact hstuck (hs.canGoOn (Or.inl rfl) hbsp ⟨hs.boot.2.1, hs.boot.2.2⟩ fun hp hf => absurd ⟨hp, hf⟩ hnot)
  have hstarted : s.started = cpus.length := by
    by_contra hne
    have hlt : s.started < cpus.length := lt_of_le_of_ne hs.started hne
    exact hstuck ⟨⟨bsp, .start⟩, _, nofun, bootStep_start hctx.1 ⟨hctx.2, hbsp⟩ hmany hlt⟩
  have hend : ∀ cpu ∈ cpus, cpu ≠ bsp → (s.segs.cpu cpu).faulted = false → s.phase cpu = .returned ∨ s.phase cpu = .running :=
    fun cpu hmem hne hf => by
      by_contra hnot
      rw [not_or] at hnot
      have hcpu : cpu ∈ cpus.take s.started := by
        rw [hstarted, List.take_length]
        exact hmem
      exact hstuck (hs.canGoOn (Or.inr hcpu) hf hnot fun _ _ => hne)
  refine ⟨hstarted, fun cpu hmem hne hid => ?_, fun cpu hmem hne hid => ?_⟩
  · refine (hs.zero cpu hne hid).resolve_left fun hentered => ?_
    rcases hend cpu hmem hne (hs.fresh cpu hentered).2.2.1 with hp | hp <;> rw [hp] at hentered <;> cases hentered
  · cases hf : (s.segs.cpu cpu).faulted with
    | true => exact Or.inr rfl
    | false => exact Or.inl ((hend cpu hmem hne hf).resolve_left (hs.other cpu hid))

/-! ### One processor after the other -/

/-- The first `k` steps of `gdt_init` on a processor. -/
def firstSteps (tss gdtAddr : Word) (cpu : Cpu) (k : Nat) : List (SegEvent Cpu) :=
  ((gdtInitSteps tss gdtAddr).take k).map fun st => ⟨cpu, .init st⟩

variable {ses : List (SegEvent Cpu)} {k : Nat}

omit [DecidableEq Cpu] in
/-- A processor that nobody interferes with finds both windows closed when it comes to its own loads. -/
theorem whole_firstSteps : codeWhole (ses ++ firstSteps tss gdtAddr cpu 54) = true := by
  rw [codeWhole, List.foldl_append]
  rfl

omit [DecidableEq Cpu] in
theorem fresh_firstSteps : tssFresh (ses ++ firstSteps tss gdtAddr cpu 55) = true := by
  rw [tssFresh, List.foldl_append]
  rfl

omit [DecidableEq Cpu] in
theorem not_faults_firstSteps {st : InitStep} (hst : (gdtInitSteps tss gdtAddr)[k]? = some st) :
    ¬Faults (ses ++ firstSteps tss gdtAddr cpu k) (.init st) := by
  rcases init_cases hst with ⟨_, _, -, -, rfl, -⟩ | ⟨_, _, -, -, rfl, -⟩ | ⟨_, _, -, -, rfl, -⟩ | ⟨_, _, -, rfl, -⟩ |
    ⟨a, hk, rfl, ha⟩
  iterate 4 exact id
  rcases load_cases ha hk with ⟨-, rfl⟩ | ⟨_, -, -, rfl⟩ | ⟨rfl, rfl⟩ | ⟨rfl, rfl⟩
  · exact id
  · exact id
  · exact fun hf => Bool.false_ne_true (hf.symm.trans whole_firstSteps)
  · exact fun hf => Bool.false_ne_true (hf.symm.trans fresh_firstSteps)

theorem run_firstSteps (tss : Word) (others : Word → Nat → Descriptor) (sIsr : Nat → Word) (hinv : SegInv gdtAddr ses segs)
    (hat : AtGdtInit (segs.cpu cpu)) (hk : k ≤ 56) :
    ∃ segs', run (segStep tss gdtAddr others (idtInit sIsr)) segs (firstSteps tss gdtAddr cpu k) = some segs' ∧
      SegInv gdtAddr (ses ++ firstSteps tss gdtAddr cpu k) segs' ∧ (segs'.cpu cpu).done = k ∧ (segs'.cpu cpu).frames = [] ∧
      (segs'.cpu cpu).faulted = false ∧ ∀ other, other ≠ cpu → segs'.cpu other = segs.cpu other := by
  induction k with
  | zero =>
    have hnil : ses ++ firstSteps tss gdtAddr cpu 0 = ses := List.append_nil ses
    exact ⟨segs, rfl, by rw [hnil]; exact hinv, hat.1, hat.2.1, hat.2.2.1, fun _ _ => rfl⟩
  | succ k ih =>
    obtain ⟨u, hu, hinv', hdone, hframes, hf, hother⟩ := ih (by omega)
    obtain ⟨st, v, hst, hv⟩ := exists_init_step tss gdtAddr others sIsr hf (by rw [hdone]; omega)
    rw [hdone] at hst
    have hsucc : firstSteps tss gdtAddr cpu (k + 1) = firstSteps tss gdtAddr cpu k ++ [⟨cpu, .init st⟩] := by
      rw [firstSteps, List.take_add_one, hst, List.map_append]
      rfl
    have hinv'' := hinv'.step hv
    have hnf : (v.cpu cpu).faulted = false := by
      rw [Bool.eq_false_iff, ne_eq, hinv''.faulted, faulted_concat, ← hinv'.faulted, hf]
      rintro (hbad | ⟨-, hbad⟩)
      · cases hbad
      · exact not_faults_firstSteps hst hbad
    obtain ⟨-, hother', -, hend⟩ := segStep_cases hv
    rw [hsucc, ← List.append_assoc]
    refine ⟨v, run_append_eq_some.mpr ⟨u, hu, run_cons_eq_some.mpr ⟨v, hv, rfl⟩⟩, hinv'', ?_⟩
    rcases hend with ⟨hbad, -⟩ | ⟨-, ⟨-, hd, hfr⟩ | ⟨hnot, -⟩⟩
    · rw [hnf] at hbad
      cases hbad
    · simp only at hd hfr
      exact ⟨by rw [hd, hdone], by rw [hfr, hframes], hnf, fun other hne => (hother' other hne).trans (hother other hne)⟩
    · exact absurd rfl (hnot st)

theorem run_map_seg {sts : List InitStep} (hcpu : cpu = bsp ∨ cpu ∈ cpus.take s.started) (hphase : s.phase cpu = .gdtInit)
    (h : run (segStep tss gdtAddr others (idtInit sIsr)) s.segs (sts.map fun st => ⟨cpu, .init st⟩) = some segs') :
    run (bootStep cpus bsp lapicId tss gdtAddr others (idtInit sIsr)) s (sts.map fun st => ⟨cpu, .seg (.init st)⟩) =
      some { s with segs := segs' } := by
  induction sts generalizing s with
  | nil =>
    cases h
    rfl
  | cons st sts ih =>
    obtain ⟨u, hu, hrun⟩ := run_cons_eq_some.mp h
    exact run_cons_eq_some.mpr ⟨{ s with segs := u }, bootStep_seg hcpu (by rw [hphase]; rfl) hu, ih hcpu hphase hrun⟩

/-- What the steps of `cpu` leave alone. -/
structure OthersSame (cpu : Cpu) (s t : BootState Cpu) : Prop where
  started : t.started = s.started
  phase : ∀ other, other ≠ cpu → t.phase other = s.phase other
  segs : ∀ other, other ≠ cpu → t.segs.cpu other = s.segs.cpu other

/-- A processor goes from `gdt_init` to `vmm_set_ctx` without a break. -/
theorem run_toCtx (cpus : List Cpu) (bsp : Cpu) (lapicId : Cpu → BitVec 32) (tss : Word) (others : Word → Nat → Descriptor)
    (sIsr : Nat → Word) (hinv : SegInv gdtAddr ses s.segs)
    (hcpu : cpu = bsp ∨ cpu ∈ cpus.take s.started) (hphase : s.phase cpu = .gdtInit) (hat : AtGdtInit (s.segs.cpu cpu)) :
    ∃ es t, run (bootStep cpus bsp lapicId tss gdtAddr others (idtInit sIsr)) s es = some t ∧ OthersSame cpu s t ∧
      t.phase cpu = .ctxSet ∧ t.OnCourse cpu := by
  obtain ⟨segs', hrun, -, hdone, hframes, hf, hother⟩ := run_firstSteps tss others sIsr hinv hat (le_refl 56)
  have hload : bootStep cpus bsp lapicId tss gdtAddr others (idtInit sIsr) { s with segs := segs' } ⟨cpu, .idtLoad⟩ =
      some (BootState.setPhase { s with segs := segs' } cpu .idtLoaded) := by
    refine bootStep_phase hcpu ⟨hframes, hf⟩ ?_
    have hover : decide ((segs'.cpu cpu).done = (gdtInitSteps tss gdtAddr).length) = true := decide_eq_true hdone
    simp only [hphase, hover]
    rfl
  have hctx : bootStep cpus bsp lapicId tss gdtAddr others (idtInit sIsr)
      (BootState.setPhase { s with segs := segs' } cpu .idtLoaded) ⟨cpu, .vmmSetCtx⟩ =
        some ((BootState.setPhase { s with segs := segs' } cpu .idtLoaded).setPhase cpu .ctxSet) := by
    refine bootStep_phase hcpu ⟨hframes, hf⟩ ?_
    rw [BootState.setPhase_self]
    rfl
  refine ⟨_, _, run_append_eq_some.mpr ⟨_, run_map_seg hcpu hphase hrun, run_cons_eq_some.mpr ⟨_, hload,
    run_cons_eq_some.mpr ⟨_, hctx, run_nil⟩⟩⟩, ⟨rfl, fun other hne => ?_, hother⟩, BootState.setPhase_self _ _ _, hframes, hf⟩
  rw [BootState.setPhase_of_ne _ _ hne, BootState.setPhase_of_ne _ _ hne]

/-- The phase in which an application processor ends. -/
def lastPhase (id : BitVec 32) : BootPhase := if id = 0 then .returned else .running

/-- An application processor goes through `ap_trampoline` without a break. -/
theorem run_turn (lapicId : Cpu → BitVec 32) (tss : Word) (others : Word → Nat → Descriptor) (sIsr : Nat → Word)
    (hinv : SegInv gdtAddr ses s.segs) (hcpu : cpu ∈ cpus.take s.started) (hne : cpu ≠ bsp) (hphase : s.phase cpu = .entered)
    (hat : AtGdtInit (s.segs.cpu cpu)) :
    ∃ es t, run (bootStep cpus bsp lapicId tss gdtAddr others (idtInit sIsr)) s es = some t ∧ OthersSame cpu s t ∧
      t.phase cpu = lastPhase (lapicId cpu) ∧ (t.segs.cpu cpu).faulted = false := by
  have henter : bootStep cpus bsp lapicId tss gdtAddr others (idtInit sIsr) s ⟨cpu, .enter⟩ =
      some (s.setPhase cpu (if lapicId cpu = 0 then .returned else .gdtInit)) := by
    refine bootStep_phase (Or.inr hcpu) ⟨hat.2.1, hat.2.2.1⟩ ?_
    rw [hphase]
    rfl
  by_cases hid : lapicId cpu = 0
  · rw [if_pos hid] at henter
    refine ⟨[⟨cpu, .enter⟩], _, run_cons_eq_some.mpr ⟨_, henter, run_nil⟩,
      ⟨rfl, fun other hother => s.setPhase_of_ne _ hother, fun _ _ => rfl⟩, ?_, hat.2.2.1⟩
    rw [BootState.setPhase_self, lastPhase, if_pos hid]
  · rw [if_neg hid] at henter
    obtain ⟨es, t, hrun, hsame, hctx, hcourse⟩ := run_toCtx (s := s.setPhase cpu .gdtInit) cpus bsp lapicId tss others sIsr hinv (Or.inr hcpu)
      (s.setPhase_self cpu _) hat
    have hlast : bootStep cpus bsp lapicId tss gdtAddr others (idtInit sIsr) t ⟨cpu, .initApicAp⟩ =
        some (t.setPhase cpu .running) := by
      refine bootStep_phase (Or.inr (by rw [hsame.started]; exact hcpu)) hcourse ?_
      rw [hctx, decide_eq_false hne]
      rfl
    refine ⟨_, _, run_cons_eq_some.mpr ⟨_, henter, run_append_eq_some.mpr ⟨t, hrun, run_cons_eq_some.mpr ⟨_, hlast, run_nil⟩⟩⟩,
      ⟨hsame.started, fun other hother => ?_, hsame.segs⟩, ?_, hcourse.2⟩
    · rw [BootState.setPhase_of_ne _ _ hother, hsame.phase other hother, BootState.setPhase_of_ne _ _ hother]
    · rw [BootState.setPhase_self, lastPhase, if_neg hid]

/-- A state that the processors come to from the start. -/
def BootReached (cpus : List Cpu) (bsp : Cpu) (lapicId : Cpu → BitVec 32) (tss gdtAddr : Word) (others : Word → Nat → Descriptor)
    (sIsr : Nat → Word) (s₀ s : BootState Cpu) : Prop :=
  ∃ es, run (bootStep cpus bsp lapicId tss gdtAddr others (idtInit sIsr)) s₀ es = some s

variable {s₀ : BootState Cpu}

theorem BootReached.run (h : BootReached cpus bsp lapicId tss gdtAddr others sIsr s₀ s)
    (hrun : run (bootStep cpus bsp lapicId tss gdtAddr others (idtInit sIsr)) s es = some t) :
    BootReached cpus bsp lapicId tss gdtAddr others sIsr s₀ t := by
  obtain ⟨es', h⟩ := h
  exact ⟨es' ++ es, run_append_eq_some.mpr ⟨s, h, hrun⟩⟩

theorem BootReached.segInv (h : BootReached cpus bsp lapicId tss gdtAddr others sIsr s₀ s) (hstart : AtBoot bsp s₀) :
    ∃ ses, SegInv gdtAddr ses s.segs := by
  obtain ⟨es, h⟩ := h
  exact ⟨_, run_segInv hstart.segs (run_segs h)⟩

/-- The processors of a list take their turns. -/
theorem run_turns (hstart : AtBoot bsp s₀) {l : List Cpu} (hl : l.Nodup)
    (hreach : BootReached cpus bsp lapicId tss gdtAddr others sIsr s₀ s) (hcpu : ∀ cpu ∈ l, cpu ∈ cpus.take s.started ∧ cpu ≠ bsp)
    (hentered : ∀ cpu ∈ l, s.phase cpu = .entered ∧ AtGdtInit (s.segs.cpu cpu)) :
    ∃ t, BootReached cpus bsp lapicId tss gdtAddr others sIsr s₀ t ∧ t.started = s.started ∧
      (∀ cpu ∈ l, t.phase cpu = lastPhase (lapicId cpu) ∧ (t.segs.cpu cpu).faulted = false) ∧
      ∀ cpu ∉ l, t.phase cpu = s.phase cpu ∧ t.segs.cpu cpu = s.segs.cpu cpu := by
  induction l generalizing s with
  | nil => exact ⟨s, hreach, rfl, nofun, fun _ _ => ⟨rfl, rfl⟩⟩
  | cons cpu l ih =>
    obtain ⟨hnot, hl⟩ := List.nodup_cons.mp hl
    obtain ⟨ses, hinv⟩ := hreach.segInv hstart
    obtain ⟨hmem, hne⟩ := hcpu cpu List.mem_cons_self
    obtain ⟨hphase, hat⟩ := hentered cpu List.mem_cons_self
    obtain ⟨es, u, hrun, hsame, hlast, hf⟩ := run_turn lapicId tss others sIsr hinv hmem hne hphase hat
    have hother : ∀ c ∈ l, c ≠ cpu := fun c hc heq => hnot (heq ▸ hc)
    obtain ⟨t, hreach', hstarted, hin, hout⟩ := ih hl (hreach.run hrun)
      (fun c hc => by rw [hsame.started]; exact hcpu c (List.mem_cons_of_mem _ hc)) fun c hc => by
        rw [hsame.phase c (hother c hc), hsame.segs c (hother c hc)]
        exact hentered c (List.mem_cons_of_mem _ hc)
    refine ⟨t, hreach', hstarted.trans hsame.started, fun c hc => ?_, fun c hc => ?_⟩
    · by_cases hmem' : c ∈ l
      · exact hin c hmem'
      · obtain rfl := (List.mem_cons.mp hc).resolve_right hmem'
        rw [(hout c hmem').1, (hout c hmem').2]
        exact ⟨hlast, hf⟩
    · have hne' : c ≠ cpu := fun heq => hc (List.mem_cons.mpr (Or.inl heq))
      obtain ⟨hp, hs⟩ := hout c fun h => hc (List.mem_cons_of_mem _ h)
      exact ⟨hp.trans (hsame.phase c hne'), hs.trans (hsame.segs c hne')⟩

/-- `smp_init` writes every `goto_address` first. -/
theorem run_starts {n : Nat} (lapicId : Cpu → BitVec 32) (tss gdtAddr : Word) (others : Word → Nat → Descriptor)
    (sIsr : Nat → Word) (hphase : s.phase bsp = .ctxSet) (hcourse : s.OnCourse bsp) (hmany : cpus.length ≠ 1)
    (hn : s.started + n ≤ cpus.length) :
    run (bootStep cpus bsp lapicId tss gdtAddr others (idtInit sIsr)) s (List.replicate n ⟨bsp, .start⟩) =
      some { s with started := s.started + n } := by
  induction n generalizing s with
  | zero => rfl
  | succ n ih =>
    have hrest := ih (s := { s with started := s.started + 1 }) hphase hcourse (by simp only; omega)
    rw [Nat.add_assoc, Nat.add_comm 1] at hrest
    exact run_cons_eq_some.mpr ⟨_, bootStep_start hphase hcourse hmany (by omega), hrest⟩

/-- The boot processor starts all others before the first of them goes on, and they take turns. -/
theorem exists_noFault (lapicId : Cpu → BitVec 32) (tss gdtAddr : Word) (others : Word → Nat → Descriptor) (sIsr : Nat → Word)
    (hstart : AtBoot bsp s) (hmany : cpus.length ≠ 1) :
    ∃ t, BootReached cpus bsp lapicId tss gdtAddr others sIsr s t ∧ AllStarted cpus bsp lapicId t ∧
      ∀ cpu, (t.segs.cpu cpu).faulted = false := by
  have hreach : BootReached cpus bsp lapicId tss gdtAddr others sIsr s s := ⟨[], rfl⟩
  obtain ⟨ses, hinv⟩ := hreach.segInv hstart
  obtain ⟨es, u, hrun, hsame, hctx, hcourse⟩ := run_toCtx cpus bsp lapicId tss others sIsr hinv (Or.inl rfl)
    hstart.boot (hstart.segs bsp)
  have hzero : u.started = 0 := hsame.started.trans hstart.started
  have hstarts := run_starts (n := cpus.length) lapicId tss gdtAddr others sIsr hctx hcourse hmany (by omega)
  obtain ⟨l, hl⟩ : ∃ l, l = (cpus.filter (· ≠ bsp)).dedup := ⟨_, rfl⟩
  have hmem : ∀ cpu, cpu ∈ l ↔ cpu ∈ cpus ∧ cpu ≠ bsp := fun cpu => by
    rw [hl, List.mem_dedup, List.mem_filter, decide_eq_true_iff]
  obtain ⟨t, hreach', hcount, hin, hout⟩ := run_turns hstart (l := l) (hl ▸ List.nodup_dedup _) ((hreach.run hrun).run hstarts)
    (fun cpu hc => by
      rw [hzero, Nat.zero_add, List.take_length]
      exact (hmem cpu).mp hc)
    fun cpu hc => by
      have hne := ((hmem cpu).mp hc).2
      exact ⟨(hsame.phase cpu hne).trans (hstart.entered cpu hne), hsame.segs cpu hne ▸ hstart.segs cpu⟩
  refine ⟨t, hreach', ⟨?_, fun cpu hc hne hid => ?_, fun cpu hc hne hid => Or.inl ?_⟩, fun cpu => ?_⟩
  · rw [hcount, hzero, Nat.zero_add]
  · rw [(hin cpu ((hmem cpu).mpr ⟨hc, hne⟩)).1, lastPhase, if_pos hid]
  · rw [(hin cpu ((hmem cpu).mpr ⟨hc, hne⟩)).1, lastPhase, if_neg hid]
  · by_cases hc : cpu ∈ l
    · exact (hin cpu hc).2
    · rw [(hout cpu hc).2]
      by_cases hb : cpu = bsp
      · rw [hb]
        exact hcourse.2
      · rw [hsame.segs cpu hb]
        exact (hstart.segs cpu).2.2.1

/-! ### The start -/

/-- However the processors take turns and are interrupted, their programs come to an end in at most 61 steps a processor and 59
    of the boot processor. No processor is ahead of `smp_init`; the faults are those of `ltr` behind another `ltr` and of loads
    of `cs` between the two stores to its descriptor; and when nothing but interrupts can go on and the boot processor has not
    faulted, each application processor has been started and has come to its end. There is a way without a fault for any number
    of them. -/
theorem smpInit_starts (cpus : List Cpu) (bsp : Cpu) (lapicId : Cpu → BitVec 32) (tss gdtAddr : Word)
    (others : Word → Nat → Descriptor) (sIsr : Nat → Word) (hstart : AtBoot bsp s) :
    (∀ es t, run (bootStep cpus bsp lapicId tss gdtAddr others (idtInit sIsr)) s es = some t →
      es.countP (fun e => e.step.isProgram) ≤ 61 * cpus.length + 59 ∧
      (∀ cpu, t.phase cpu ≠ .entered → cpu = bsp ∨ cpu ∈ cpus.take t.started) ∧
      (∀ cpu, (t.segs.cpu cpu).faulted = true ↔ Faulted cpu (segEventsOf es)) ∧
      (cpus.length ≠ 1 → (t.segs.cpu bsp).faulted = false → ¬CanGoOn cpus bsp lapicId tss gdtAddr others sIsr t →
        AllStarted cpus bsp lapicId t)) ∧
    (cpus.length ≠ 1 → ∃ es t, run (bootStep cpus bsp lapicId tss gdtAddr others (idtInit sIsr)) s es = some t ∧
      AllStarted cpus bsp lapicId t ∧ ∀ cpu, (t.segs.cpu cpu).faulted = false) := by
  refine ⟨fun es t h => ?_, fun hmany => ?_⟩
  · have hwork := countP_le (BootState.work cpus bsp) (fun e => e.step.isProgram) (fun s e s' h => work_step h) h
    have hbound := work_atBoot cpus hstart
    have hend : Starting cpus bsp lapicId t := run_inv _ (fun s e s' _ hs hstep => hs.step hstep) hstart.starting h
    exact ⟨by omega, hend.ahead, (run_segInv hstart.segs (run_segs h)).faulted, fun hmany hf hstuck =>
      hend.allStarted hmany hf hstuck⟩
  · obtain ⟨t, ⟨es, hrun⟩, hall, hnone⟩ := exists_noFault lapicId tss gdtAddr others sIsr hstart hmany
    exact ⟨es, t, hrun, hall, hnone⟩

end

/-- Three processors, of which 0 comes to `gdt_init` in `_start`. -/
def bootStart : BootState Nat where
  started := 0
  phase := fun cpu => if cpu = 0 then .gdtInit else .entered
  segs := limineSegments

theorem atBoot_bootStart : AtBoot 0 bootStart where
  started := rfl
  boot := rfl
  entered _ hne := if_neg hne
  segs _ := by
    have hcpl : (limineSegments.cpu 0).file.cpl = 0 := by decide
    exact ⟨rfl, rfl, rfl, hcpl⟩

theorem smpInit_starts_sample : ∃ es t, run (bootStep [0, 1, 2] 0 (BitVec.ofNat 32) 0xffffffff80020000 0xffffffff80010000
    (fun _ _ => 0) (idtInit fun i => BitVec.ofNat 64 (0xffffffff80001000 + i))) bootStart es = some t ∧
    t.phase 1 = .running ∧ t.phase 2 = .running ∧ es.countP (fun e => e.step.isProgram) ≤ 242 ∧
    ¬Faulted 1 (segEventsOf es) ∧ ¬Faulted 2 (segEventsOf es) := by
  obtain ⟨hall, hgood⟩ := smpInit_starts [0, 1, 2] 0 (BitVec.ofNat 32) 0xffffffff80020000 0xffffffff80010000 (fun _ _ => 0)
    (fun i => BitVec.ofNat 64 (0xffffffff80001000 + i)) atBoot_bootStart
  obtain ⟨es, t, hrun, hend, hno⟩ := hgood (by decide)
  obtain ⟨hcount, -, hiff, -⟩ := hall es t hrun
  have hnot : ∀ cpu, ¬Faulted cpu (segEventsOf es) := fun cpu hf => by
    have hbad := hno cpu
    rw [(hiff cpu).mpr hf] at hbad
    cases hbad
  have hfine : ∀ cpu, (t.segs.cpu cpu).faulted ≠ true := fun cpu hf => by
    rw [hno cpu] at hf
    cases hf
  exact ⟨es, t, hrun, (hend.running 1 (by decide) (by decide) (by decide)).resolve_right (hfine 1),
    (hend.running 2 (by decide) (by decide) (by decide)).resolve_right (hfine 2), hcount, hnot 1, hnot 2⟩

end Neobird64
