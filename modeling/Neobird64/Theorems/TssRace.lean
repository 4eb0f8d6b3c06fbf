import Neobird64.Smp
import Mathlib.Data.List.Infix
import Mathlib.Tactic.Common

/-! The TSS descriptor that the application processors share. `ltr` faults on a descriptor that another
    `ltr` has marked busy, so each must follow a write of `gdt_init` of its own; two processors that write
    first and load then break this. -/

namespace Neobird64
open Trace

section
variable {Cpu : Type} {lapicId : Cpu → BitVec 32} {tss : Word} {s s' t : SmpState Cpu} {e : ApEvent Cpu}
variable {es : List (ApEvent Cpu)} {gdt gdt' : Gdt} {phase phase' : ApPhase} {st : ApStep} {id : BitVec 32}

/-- The descriptors have been written since the last `ltr`. -/
def gdtFresh (es : List (ApEvent Cpu)) : Bool :=
  es.foldl (fun fresh e => match e.step with
    | .writeGdt => true
    | .ltr => false
    | _ => fresh) false

/-- Whenever a processor executes `ltr`, the descriptors have been written since the last one. -/
def Separated (es : List (ApEvent Cpu)) : Prop := ∀ i (h : i < es.length), es[i].step = .ltr → gdtFresh (es.take i) = true

instance (es : List (ApEvent Cpu)) : Decidable (Separated es) := Nat.decidableBallLT _ _

/-- No processor has faulted. -/
def NoFault (s : SmpState Cpu) : Prop := ∀ cpu, s.phase cpu ≠ .faulted

/-! ### The descriptor -/

theorem availableTss_gdtInitEntries (tss : Word) (gdt : Gdt) : (gdtInitEntries tss gdt 5).availableTss = true := by
  simp [gdtInitEntries, gdtSetEntry_eq, GdtDesc.availableTss]

theorem ltr_eq_some (h : ltr gdt = some gdt') : (gdt 5).availableTss = true ∧ (gdt' 5).availableTss = false := by
  rw [ltr] at h
  split at h
  · rename_i havail
    refine ⟨havail, ?_⟩
    cases h
    rw [Function.update_self, GdtDesc.availableTss]
    refine decide_eq_false fun hbusy => ?_
    have hbit := congrArg (BitVec.getLsbD · 1) hbusy
    simp at hbit
  · cases h

theorem ltr_eq_none (h : ltr gdt = none) : (gdt 5).availableTss = false := by
  rw [ltr] at h
  split at h
  · cases h
  · rename_i hbusy
    exact Bool.eq_false_iff.mpr hbusy

/-! ### One step -/

/-- The processor has written the descriptors and not loaded the TSS. -/
def Loading (phase : ApPhase) : Prop := phase = .gdtWritten ∨ phase = .gdtLoaded

instance (phase : ApPhase) : Decidable (Loading phase) := inferInstanceAs (Decidable (_ ∨ _))

theorem apStep_cases (h : apStep id tss gdt phase st = some (gdt', phase')) :
    (st = .writeGdt ∧ phase = .started ∧ gdt' = gdtInitEntries tss gdt ∧ phase' = .gdtWritten) ∨
    (st = .ltr ∧ phase = .gdtLoaded ∧ (gdt 5).availableTss = true ∧ (gdt' 5).availableTss = false ∧ phase' = .tssLoaded) ∨
    (st = .ltr ∧ phase = .gdtLoaded ∧ (gdt 5).availableTss = false ∧ gdt' = gdt ∧ phase' = .faulted) ∨
    (st ≠ .writeGdt ∧ st ≠ .ltr ∧ gdt' = gdt ∧ phase' ≠ .faulted ∧ (Loading phase' → Loading phase)) := by
  rw [apStep.eq_def] at h
  split at h
  · cases h
    refine Or.inr (Or.inr (Or.inr ⟨nofun, nofun, rfl, ?_, ?_⟩))
    · split <;> nofun
    · split <;> exact fun hl => absurd hl (by decide)
  · cases h
    exact Or.inl ⟨rfl, rfl, rfl, rfl⟩
  · cases h
    exact Or.inr (Or.inr (Or.inr ⟨nofun, nofun, rfl, nofun, fun _ => Or.inl rfl⟩))
  · split at h
    · rename_i hltr
      cases h
      obtain ⟨havail, hbusy⟩ := ltr_eq_some hltr
      exact Or.inr (Or.inl ⟨rfl, rfl, havail, hbusy, rfl⟩)
    · rename_i hltr
      cases h
      exact Or.inr (Or.inr (Or.inl ⟨rfl, rfl, ltr_eq_none hltr, rfl, rfl⟩))
  · cases h
    exact Or.inr (Or.inr (Or.inr ⟨nofun, nofun, rfl, nofun, fun hl => absurd hl (by decide)⟩))
  · cases h
    exact Or.inr (Or.inr (Or.inr ⟨nofun, nofun, rfl, nofun, fun hl => absurd hl (by decide)⟩))
  · cases h
    exact Or.inr (Or.inr (Or.inr ⟨nofun, nofun, rfl, nofun, fun hl => absurd hl (by decide)⟩))
  · cases h

theorem apStep_faulted : apStep id tss gdt .faulted st = none := by
  cases st <;> rfl

theorem apStep_enter (h : id ≠ 0) : apStep id tss gdt .entered .enter = some (gdt, .started) := by
  rw [apStep, if_neg h]

/-! ### The events so far -/

theorem gdtFresh_concat : gdtFresh (es ++ [e]) = match e.step with
    | .writeGdt => true
    | .ltr => false
    | _ => gdtFresh es := by
  rw [gdtFresh, List.foldl_append]
  rfl

theorem separated_concat : Separated (es ++ [e]) ↔ Separated es ∧ (e.step = .ltr → gdtFresh es = true) := by
  constructor
  · refine fun h => ⟨fun i hi hltr => ?_, fun hltr => ?_⟩
    · have hfresh := h i (by rw [List.length_append]; omega) (by rwa [List.getElem_append_left hi])
      rwa [List.take_append_of_le_length hi.le] at hfresh
    · have hfresh := h es.length (by simp) (by simpa using hltr)
      rwa [List.take_left'] at hfresh
      rfl
  · rintro ⟨h, hlast⟩ i hi hltr
    rcases Nat.lt_or_ge i es.length with hlt | hge
    · rw [List.take_append_of_le_length hlt.le]
      exact h i hlt (by rwa [List.getElem_append_left hlt] at hltr)
    · obtain rfl : i = es.length := by
        rw [List.length_append, List.length_singleton] at hi
        omega
      rw [List.take_left' rfl]
      exact hlast (by simpa using hltr)

/-! ### The machine -/

variable [DecidableEq Cpu]

theorem phase_put_self {cpu : Cpu} : (s.put cpu (gdt', phase')).phase cpu = phase' := Function.update_self _ _ _

theorem phase_put_of_ne {cpu c : Cpu} {x : Gdt × ApPhase} (h : c ≠ cpu) : (s.put cpu x).phase c = s.phase c :=
  Function.update_of_ne h _ _

theorem smpStep_eq_some : smpStep lapicId tss s e = some s' ↔ ∃ gdt' phase',
    apStep (lapicId e.cpu) tss s.gdt (s.phase e.cpu) e.step = some (gdt', phase') ∧ s.put e.cpu (gdt', phase') = s' := by
  rw [smpStep, Option.map_eq_some_iff]
  exact Prod.exists

theorem smpStep_of (phase : ApPhase) {cpu : Cpu} {x : Gdt × ApPhase} (hphase : s.phase cpu = phase)
    (hap : apStep (lapicId cpu) tss s.gdt phase st = some x) : smpStep lapicId tss s ⟨cpu, st⟩ = some (s.put cpu x) := by
  rw [smpStep, hphase, hap, Option.map_some]

theorem noFault_put (h : apStep (lapicId e.cpu) tss s.gdt (s.phase e.cpu) e.step = some (gdt', phase')) :
    NoFault (s.put e.cpu (gdt', phase')) ↔ NoFault s ∧ phase' ≠ .faulted := by
  have hold : s.phase e.cpu ≠ .faulted := fun hf => by
    rw [hf, apStep_faulted] at h
    cases h
  constructor
  · intro hno
    have hlast := hno e.cpu
    rw [phase_put_self] at hlast
    refine ⟨fun c => ?_, hlast⟩
    by_cases hc : c = e.cpu
    · rw [hc]
      exact hold
    · have hother := hno c
      rwa [phase_put_of_ne hc] at hother
  · rintro ⟨hno, hne⟩ c
    by_cases hc : c = e.cpu
    · rw [hc, phase_put_self]
      exact hne
    · rw [phase_put_of_ne hc]
      exact hno c

/-- The state after the events: its descriptor is available when they have written it since the last
    `ltr`, and a processor has faulted when one of them came too early. -/
structure TssInv (es : List (ApEvent Cpu)) (s : SmpState Cpu) : Prop where
  written : ∀ cpu, Loading (s.phase cpu) → ∃ e ∈ es, e.step = .writeGdt
  available : (∃ e ∈ es, e.step = .writeGdt) → (s.gdt 5).availableTss = gdtFresh es
  noFault : NoFault s ↔ Separated es

theorem TssInv.written_put (inv : TssInv es s) (h : Loading phase' → e.step = .writeGdt ∨ Loading (s.phase e.cpu))
    (cpu : Cpu) (hl : Loading ((s.put e.cpu (gdt', phase')).phase cpu)) : ∃ e' ∈ es ++ [e], e'.step = .writeGdt := by
  have before : ∀ {c}, Loading (s.phase c) → ∃ e' ∈ es ++ [e], e'.step = .writeGdt := fun hc => by
    obtain ⟨e', he', hstep⟩ := inv.written _ hc
    exact ⟨e', List.mem_append_left _ he', hstep⟩
  by_cases hcpu : cpu = e.cpu
  · rw [hcpu, phase_put_self] at hl
    rcases h hl with hw | hl
    · exact ⟨e, List.mem_append_right _ List.mem_cons_self, hw⟩
    · exact before hl
  · rw [phase_put_of_ne hcpu] at hl
    exact before hl

theorem TssInv.step (inv : TssInv es s) (h : smpStep lapicId tss s e = some s') : TssInv (es ++ [e]) s' := by
  obtain ⟨gdt', phase', hap, rfl⟩ := smpStep_eq_some.mp h
  have hno := noFault_put hap
  rw [inv.noFault] at hno
  rcases apStep_cases hap with ⟨hw, -, rfl, rfl⟩ | ⟨hl, hphase, havail, hbusy, rfl⟩ | ⟨hl, hphase, havail, rfl, rfl⟩ |
    ⟨hw, hl, rfl, hne, hload⟩
  · refine ⟨inv.written_put fun _ => Or.inl hw, fun _ => ?_, ?_⟩
    · rw [gdtFresh_concat, hw]
      exact availableTss_gdtInitEntries tss s.gdt
    · rw [hno, separated_concat, hw]
      simp
  · have hfresh := inv.available (inv.written e.cpu (Or.inr hphase))
    refine ⟨inv.written_put fun hl => absurd hl (by decide), fun _ => ?_, ?_⟩
    · rw [gdtFresh_concat, hl]
      exact hbusy
    · rw [hno, separated_concat, hl, ← hfresh, havail]
      simp
  · have hfresh := inv.available (inv.written e.cpu (Or.inr hphase))
    refine ⟨inv.written_put fun hl => absurd hl (by decide), fun _ => ?_, ?_⟩
    · rw [gdtFresh_concat, hl]
      exact havail
    · rw [hno, separated_concat, hl, ← hfresh, havail]
      simp
  · have hfresh : gdtFresh (es ++ [e]) = gdtFresh es := by
      rw [gdtFresh_concat]
      split <;> simp_all
    refine ⟨inv.written_put fun h => Or.inr (hload h), fun ⟨e', he', hstep⟩ => ?_, ?_⟩
    · rw [hfresh]
      rcases List.mem_append.mp he' with he' | he'
      · exact inv.available ⟨e', he', hstep⟩
      · rw [List.mem_singleton.mp he'] at hstep
        exact absurd hstep hw
    · rw [hno, separated_concat]
      exact and_congr_right fun _ => iff_of_true hne fun h => absurd h hl

theorem run_tssInv (hstart : ∀ cpu, s.phase cpu = .entered) (h : run (smpStep lapicId tss) s es = some t) : TssInv es t := by
  induction es using List.reverseRecOn generalizing t with
  | nil =>
    cases h
    refine ⟨fun cpu hc => ?_, fun ⟨e, he, _⟩ => (List.not_mem_nil he).elim, iff_of_true (fun cpu => ?_) nofun⟩
    · rw [hstart] at hc
      exact absurd hc (by decide)
    · rw [hstart]
      nofun
  | append_singleton es e ih =>
    obtain ⟨u, hu, he⟩ := run_append_eq_some.mp h
    rw [run_cons_eq_some] at he
    obtain ⟨s', he, hs'⟩ := he
    cases hs'
    exact (ih hu).step he

/-! ### One application processor -/

/-- With one application processor, its descriptor stays available until it loads it. -/
structure AloneInv (lapicId : Cpu → BitVec 32) (s : SmpState Cpu) : Prop where
  boot : ∀ cpu, lapicId cpu = 0 → s.phase cpu = .entered ∨ s.phase cpu = .returned
  available : ∀ cpu, Loading (s.phase cpu) → (s.gdt 5).availableTss = true
  noFault : NoFault s

theorem AloneInv.next (inv : AloneInv lapicId s) (halone : ∀ cpu c, lapicId cpu ≠ 0 → lapicId c ≠ 0 → cpu = c)
    (h : smpStep lapicId tss s e = some s') : AloneInv lapicId s' := by
  obtain ⟨gdt', phase', hap, rfl⟩ := smpStep_eq_some.mp h
  -- The boot processor only returns.
  have hboot : lapicId e.cpu = 0 → e.step = .enter ∧ phase' = .returned := fun h0 => by
    rcases inv.boot e.cpu h0 with hphase | hphase <;> rw [hphase] at hap <;> cases hst : e.step <;> rw [hst] at hap <;>
      cases hap
    exact ⟨rfl, if_pos h0⟩
  have hother : ∀ cpu, cpu ≠ e.cpu → lapicId e.cpu ≠ 0 → ¬Loading (s.phase cpu) := fun cpu hne he hl => by
    have hcpu : lapicId cpu = 0 := by
      by_contra hc
      exact hne (halone cpu e.cpu hc he)
    rcases inv.boot cpu hcpu with hphase | hphase <;> rw [hphase] at hl <;> exact absurd hl (by decide)
  refine ⟨fun cpu h0 => ?_, fun cpu hl => ?_, (noFault_put hap).mpr ⟨inv.noFault, fun hf => ?_⟩⟩
  · by_cases hcpu : cpu = e.cpu
    · subst hcpu
      rw [phase_put_self]
      exact Or.inr (hboot h0).2
    · rw [phase_put_of_ne hcpu]
      exact inv.boot cpu h0
  · rcases apStep_cases hap with ⟨-, -, rfl, -⟩ | ⟨hst, -, -, -, rfl⟩ | ⟨-, hphase, hbusy, -⟩ | ⟨-, -, rfl, -, hload⟩
    · exact availableTss_gdtInitEntries tss s.gdt
    · have he : lapicId e.cpu ≠ 0 := fun h0 => by
        rw [(hboot h0).1] at hst
        cases hst
      by_cases hcpu : cpu = e.cpu
      · rw [hcpu, phase_put_self] at hl
        exact absurd hl (by decide)
      · rw [phase_put_of_ne hcpu] at hl
        exact absurd hl (hother cpu hcpu he)
    · rw [inv.available e.cpu (Or.inr hphase)] at hbusy
      cases hbusy
    · by_cases hcpu : cpu = e.cpu
      · rw [hcpu, phase_put_self] at hl
        exact inv.available e.cpu (hload hl)
      · rw [phase_put_of_ne hcpu] at hl
        exact inv.available cpu hl
  · rcases apStep_cases hap with ⟨-, -, -, rfl⟩ | ⟨-, -, -, -, rfl⟩ | ⟨-, hphase, hbusy, -⟩ | ⟨-, -, -, hne, -⟩
    · cases hf
    · cases hf
    · rw [inv.available e.cpu (Or.inr hphase)] at hbusy
      cases hbusy
    · exact hne hf

/-- Two application processors that write the descriptors one after the other and then load them. -/
def raceEvents (cpu c : Cpu) : List (ApEvent Cpu) :=
  [⟨cpu, .enter⟩, ⟨c, .enter⟩, ⟨cpu, .writeGdt⟩, ⟨c, .writeGdt⟩, ⟨cpu, .setGdt⟩, ⟨c, .setGdt⟩, ⟨cpu, .ltr⟩, ⟨c, .ltr⟩]

theorem ltr_twice (tss : Word) (gdt : Gdt) : ∃ gdt', ltr (gdtInitEntries tss gdt) = some gdt' ∧ ltr gdt' = none := by
  have havail := availableTss_gdtInitEntries tss gdt
  have hltr : ltr (gdtInitEntries tss gdt) = some _ := if_pos havail
  refine ⟨_, hltr, if_neg ?_⟩
  rw [(ltr_eq_some hltr).2]
  exact Bool.false_ne_true

theorem exists_race {cpu c : Cpu} (hne : cpu ≠ c) (hcpu : lapicId cpu ≠ 0) (hc : lapicId c ≠ 0)
    (hstart : ∀ cpu, s.phase cpu = .entered) :
    ∃ t, run (smpStep lapicId tss) s (raceEvents cpu c) = some t ∧ t.phase c = .faulted := by
  obtain ⟨g₁, hg₁⟩ : ∃ g, g = gdtInitEntries tss s.gdt := ⟨_, rfl⟩
  obtain ⟨g₂, hg₂⟩ : ∃ g, g = gdtInitEntries tss g₁ := ⟨_, rfl⟩
  obtain ⟨g₃, hltr, hbusy⟩ := ltr_twice tss g₁
  have hload : apStep (lapicId cpu) tss g₂ .gdtLoaded .ltr = some (g₃, .tssLoaded) := by rw [apStep, hg₂, hltr]
  have hfault : apStep (lapicId c) tss g₃ .gdtLoaded .ltr = some (g₃, .faulted) := by rw [apStep, hbusy]
  have h₁ : apStep (lapicId cpu) tss s.gdt .started .writeGdt = some (g₁, .gdtWritten) := by rw [apStep, hg₁]
  have h₂ : apStep (lapicId c) tss g₁ .started .writeGdt = some (g₂, .gdtWritten) := by rw [apStep, hg₂]
  refine ⟨_, run_cons_eq_some.mpr ⟨_, smpStep_of .entered (hstart cpu) (apStep_enter hcpu),
    run_cons_eq_some.mpr ⟨_, smpStep_of .entered ?_ (apStep_enter hc),
    run_cons_eq_some.mpr ⟨_, smpStep_of .started ?_ h₁, run_cons_eq_some.mpr ⟨_, smpStep_of .started ?_ h₂,
    run_cons_eq_some.mpr ⟨_, smpStep_of .gdtWritten ?_ rfl, run_cons_eq_some.mpr ⟨_, smpStep_of .gdtWritten ?_ rfl,
    run_cons_eq_some.mpr ⟨_, smpStep_of .gdtLoaded ?_ hload, run_cons_eq_some.mpr ⟨_, smpStep_of .gdtLoaded ?_ hfault,
    run_nil⟩⟩⟩⟩⟩⟩⟩⟩, phase_put_self⟩
  · rw [phase_put_of_ne hne.symm, hstart]
  all_goals
    first
      | rw [phase_put_of_ne hne, phase_put_self]
      | rw [phase_put_of_ne hne.symm, phase_put_self]

/-- In every run `ltr` faults on no processor exactly when the descriptors have been written since the last
    `ltr` each time that one is executed. All runs are like this only when there is one application
    processor at most. -/
theorem noFault_iff_separated (lapicId : Cpu → BitVec 32) (tss : Word) (hstart : ∀ cpu, s.phase cpu = .entered) :
    (∀ es t, run (smpStep lapicId tss) s es = some t → (NoFault t ↔ Separated es)) ∧
    ((∀ es t, run (smpStep lapicId tss) s es = some t → NoFault t) ↔
      ∀ cpu c, lapicId cpu ≠ 0 → lapicId c ≠ 0 → cpu = c) := by
  refine ⟨fun es t h => (run_tssInv hstart h).noFault, fun h cpu c hcpu hc => ?_, fun halone es t h => ?_⟩
  · by_contra hne
    obtain ⟨t, ht, hfault⟩ := exists_race hne hcpu hc hstart
    exact h _ t ht c hfault
  · have hinit : AloneInv lapicId s := by
      refine ⟨fun cpu _ => Or.inl (hstart cpu), fun cpu hl => ?_, fun cpu => ?_⟩
      · rw [hstart] at hl
        exact absurd hl (by decide)
      · rw [hstart]
        nofun
    exact (run_inv (AloneInv lapicId) (fun s e s' _ inv hstep => inv.next halone hstep) hinit h).noFault

end

/-- The processors at the entry of `ap_trampoline`, after the boot processor has loaded its TSS. -/
def apsEntered : SmpState Nat where
  gdt := (ltr (gdtInitEntries 0xffffffff80010000 fun _ => ⟨0, 0, 0, 0, 0, 0⟩)).getD fun _ => ⟨0, 0, 0, 0, 0, 0⟩
  phase := fun _ => .entered

def turnEvents (cpu : Nat) : List (ApEvent Nat) := [⟨cpu, .enter⟩, ⟨cpu, .writeGdt⟩, ⟨cpu, .setGdt⟩, ⟨cpu, .ltr⟩]

/-- Processor 1 is done with its TSS before processor 2 writes the descriptors. -/
theorem noFault_iff_separated_sample : ∃ t, run (smpStep (BitVec.ofNat 32) 0xffffffff80010000) apsEntered
    (turnEvents 1 ++ turnEvents 2) = some t ∧ NoFault t := by
  obtain ⟨t, ht⟩ : ∃ t, run (smpStep (BitVec.ofNat 32) 0xffffffff80010000) apsEntered (turnEvents 1 ++ turnEvents 2) =
    some t := ⟨_, rfl⟩
  exact ⟨t, ht, ((noFault_iff_separated _ _ fun _ => rfl).1 _ t ht).mpr (by decide)⟩

/-- Processors 1 and 2 both write the descriptors, then both load the TSS: the second `ltr` faults. -/
theorem ltr_race_faults : ∃ t, run (smpStep (BitVec.ofNat 32) 0xffffffff80010000) apsEntered (raceEvents 1 2) = some t ∧
    ¬NoFault t :=
  ⟨_, rfl, fun h => h 2 rfl⟩

end Neobird64
