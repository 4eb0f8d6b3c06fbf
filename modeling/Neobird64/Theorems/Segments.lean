import Neobird64.Segments
import Neobird64.Theorems.TssRace

/-! `s_setgdt` returns through a far return that it builds on the stack, with the kernel's segments loaded. -/

namespace Neobird64
open X86 Trace

section
variable {gdtAddr ret : Word} {others : Word → Nat → Descriptor} {f : Callee} {m m' : GdtMachine} {l : List Word}
variable {selector : BitVec 16}

/-! ### `gdt.asm` -/

/-- A call that has come back to `ret`: that is off the stack, and of the registers only `rax` may have changed. -/
structure Returned (ret : Word) (l : List Word) (core core' : Machine) : Prop where
  rip : core'.rip = ret
  rsp : core'.rsp = core.rsp + 8
  stack : OnStack core' l
  regs : ∀ r, r ≠ .rax → core'.regs r = core.regs r

/-- The machine with other descriptors and segment registers. -/
def GdtMachine.withSegments (m : GdtMachine) (s : Gdt × SegFile) : GdtMachine := { m with gdt := s.1, file := s.2 }

theorem gdtRun_of_some {instr : GdtInstr} {code : List GdtInstr} (h : gdtExec gdtAddr others f m instr = some m') :
    gdtRun gdtAddr others f m (instr :: code) = gdtRun gdtAddr others f m' code := by
  rw [gdtRun, Trace.run_cons, h]
  rfl

theorem run_movSegs (segs : List Seg) (code : List GdtInstr) (hrax : (m.core.regs .rax).setWidth 16 = selector) :
    gdtRun gdtAddr others f m (segs.map .movSeg ++ code) =
      (run (gdtAct gdtAddr others) (m.gdt, m.file) (segs.map fun seg => .mov seg selector)).bind fun s =>
        gdtRun gdtAddr others f (m.withSegments s) code := by
  induction segs generalizing m with
  | nil => rfl
  | cons seg segs ih =>
    rw [List.map_cons, List.cons_append, List.map_cons, Trace.run_cons, gdtRun, Trace.run_cons]
    have hexec : gdtExec gdtAddr others f m (.movSeg seg) =
        (gdtAct gdtAddr others (m.gdt, m.file) (.mov seg selector)).map m.withSegments := by
      rw [← hrax]
      rfl
    rw [hexec]
    cases gdtAct gdtAddr others (m.gdt, m.file) (.mov seg selector) with
    | none => rfl
    | some s => exact ih (m := m.withSegments s) hrax

/-- The end of `s_setgdt`. -/
def farReturnCode : List GdtInstr := [.stack (.pop .rax), .stack (.pushImm 0x08), .stack (.push .rax), .retfq]

/-- The return address is moved down for `cs`, and `retfq` takes both. -/
theorem run_farReturn (gdtAddr : Word) (others : Word → Nat → Descriptor) (f : Callee) {core : Machine}
    (h : OnStack core (ret :: l)) (hl : l.length + 2 ≤ 2 ^ 32) :
    ∃ core', Returned ret l core core' ∧ ∀ m : GdtMachine, m.core = core → gdtRun gdtAddr others f m farReturnCode =
      (gdtAct gdtAddr others (m.gdt, m.file) (.retfq 0x08)).map fun s => { m.withSegments s with core := core' } := by
  obtain ⟨popped, hpopped⟩ : ∃ popped, popped = exec f core (.pop .rax) := ⟨_, rfl⟩
  obtain ⟨pushed, hpushed⟩ : ∃ pushed, pushed = exec f (exec f popped (.pushImm 0x08)) (.push .rax) := ⟨_, rfl⟩
  have hrax : popped.regs .rax = ret := by
    have htop : core.top 0 = ret := h.words 0 (by simp)
    have hpop : Function.update core.regs .rax (core.top 0) .rax = core.top 0 := Function.update_self _ _ _
    rw [hpopped, ← htop]
    exact hpop
  have hstack : OnStack pushed (ret :: 0x08 :: l) := by
    have hpop : OnStack popped l := by
      rw [hpopped]
      exact h.drop rfl rfl
    rw [hpushed, ← hrax]
    exact (hpop.push (by omega)).push (by rw [List.length_cons]; omega)
  have htop : pushed.top 0 = ret := hstack.words 0 (by simp)
  have hcs : pushed.top 1 = 0x08 := hstack.words 1 (by simp)
  have hrsp : pushed.rsp + 16 = core.rsp + 8 := by
    have h16 : (16 : Word) = 8 + 8 := rfl
    rw [hpushed, hpopped, h16, ← BitVec.add_assoc]
    simp only [exec, push_rsp, BitVec.sub_add_cancel]
  refine ⟨{ pushed with rip := pushed.top 0, rsp := pushed.rsp + 16 }, ⟨htop, hrsp, ?_, fun r hr => ?_⟩, ?_⟩
  · have hone : OnStack { pushed with rsp := pushed.rsp + 8 } (0x08 :: l) := hstack.drop rfl rfl
    exact hone.drop (by simp only [BitVec.add_assoc]; rfl) rfl
  · rw [hpushed, hpopped]
    exact Function.update_of_ne hr _ _
  · rintro m rfl
    have hrun : gdtRun gdtAddr others f m farReturnCode =
        (gdtExec gdtAddr others f { m with core := pushed } .retfq).bind some := by
      rw [hpushed, hpopped]
      rfl
    rw [hrun, Option.bind_fun_some, gdtExec, hcs]
    unfold GdtMachine.act
    rw [Option.map_map]
    rfl

theorem sSetgdt_returns (gdtAddr : Word) (others : Word → Nat → Descriptor) (f : Callee)
    (h : OnStack m.core (ret :: l)) (hl : l.length + 2 ≤ 2 ^ 32) : ∃ core' gdtr,
    Returned ret l m.core core' ∧ gdtRun gdtAddr others f m sSetgdt =
      (run (gdtAct gdtAddr others) (m.gdt, m.file) (sSetgdtActions ((m.core.regs .rdi).setWidth 16) (m.core.regs .rsi))).map
        fun s => ⟨core', gdtr, s.1, s.2⟩ := by
  obtain ⟨core, hcore⟩ : ∃ core : Machine, core = { m.core with regs := Function.update m.core.regs .rax 0x10 } := ⟨_, rfl⟩
  obtain ⟨gdtr, hgdtr⟩ : ∃ gdtr : Gdtr, gdtr = ⟨(m.core.regs .rdi).setWidth 16, m.core.regs .rsi⟩ := ⟨_, rfl⟩
  have hstack : OnStack core (ret :: l) := by
    rw [hcore]
    exact ⟨h.aligned, h.short, h.words⟩
  have hrax : (core.regs .rax).setWidth 16 = (0x10 : BitVec 16) := by
    have hmov : Function.update m.core.regs .rax 0x10 .rax = 0x10 := Function.update_self _ _ _
    rw [hcore]
    exact congrArg (BitVec.setWidth 16) hmov
  obtain ⟨core', hret, hrun⟩ := run_farReturn gdtAddr others f hstack hl
  refine ⟨core', gdtr, ⟨hret.rip, ?_, hret.stack, fun r hr => ?_⟩, ?_⟩
  · rw [hret.rsp, hcore]
  · rw [hret.regs r hr, hcore]
    exact Function.update_of_ne hr _ _
  · have hload : gdtRun gdtAddr others f m sSetgdt = gdtRun gdtAddr others f ⟨core, gdtr, m.gdt, { m.file with gdtr := gdtr }⟩
        ([Seg.ds, .es, .gs, .fs, .ss].map .movSeg ++ farReturnCode) := by
      rw [hcore, hgdtr]
      exact (gdtRun_of_some rfl).trans ((gdtRun_of_some rfl).trans ((gdtRun_of_some rfl).trans (gdtRun_of_some rfl)))
    have hacts : run (gdtAct gdtAddr others) (m.gdt, m.file) (sSetgdtActions gdtr.limit gdtr.base) =
        (run (gdtAct gdtAddr others) (m.gdt, { m.file with gdtr := gdtr })
          ([Seg.ds, .es, .gs, .fs, .ss].map fun seg => .mov seg 0x10)).bind fun s =>
            gdtAct gdtAddr others s (.retfq 0x08) := by
      have hone : ∀ s, gdtAct gdtAddr others s (.retfq 0x08) = run (gdtAct gdtAddr others) s [.retfq 0x08] := fun s => by
        rw [Trace.run_cons]
        exact (Option.bind_fun_some _).symm
      simp only [hone]
      rw [← Trace.run_append]
      rfl
    have hfield : (m.core.regs .rdi).setWidth 16 = gdtr.limit ∧ m.core.regs .rsi = gdtr.base := by
      rw [hgdtr]
      exact ⟨rfl, rfl⟩
    rw [hload, run_movSegs _ _ hrax, hfield.1, hfield.2, hacts, Option.map_bind]
    refine congrArg (Option.bind _) (funext fun s => ?_)
    exact hrun (GdtMachine.withSegments ⟨core, gdtr, m.gdt, { m.file with gdtr := gdtr }⟩ s) rfl

theorem sSettss_returns (gdtAddr : Word) (others : Word → Nat → Descriptor) (f : Callee)
    (h : OnStack m.core (ret :: l)) : ∃ core', Returned ret l m.core core' ∧
    gdtRun gdtAddr others f m sSettss =
      (run (gdtAct gdtAddr others) (m.gdt, m.file) [.ltr]).map fun s => ⟨core', m.gdtr, s.1, s.2⟩ := by
  obtain ⟨core, hcore⟩ : ∃ core : Machine, core = { m.core with
      regs := Function.update m.core.regs .rax ((m.core.regs .rax).extractLsb' 16 48 ++ (0x28 : BitVec 16)) } := ⟨_, rfl⟩
  have hret : Returned ret l m.core { core with rip := core.top 0, rsp := core.rsp + 8 } := by
    rw [hcore]
    exact ⟨h.words 0 (by simp), rfl, h.drop rfl rfl, fun r hr => Function.update_of_ne hr _ _⟩
  have hax : (core.regs .rax).setWidth 16 = (0x28 : BitVec 16) := by
    have hmov : Function.update m.core.regs .rax ((m.core.regs .rax).extractLsb' 16 48 ++ (0x28 : BitVec 16)) .rax =
        (m.core.regs .rax).extractLsb' 16 48 ++ (0x28 : BitVec 16) := Function.update_self _ _ _
    rw [hcore]
    exact (congrArg (BitVec.setWidth 16) hmov).trans BitVec.setWidth_append_eq_right
  refine ⟨_, hret, ?_⟩
  have hrun : gdtRun gdtAddr others f m sSettss =
      (gdtExec gdtAddr others f { m with core := core } .ltr).bind fun m' =>
        some { m' with core := { m'.core with rip := m'.core.top 0, rsp := m'.core.rsp + 8 } } := by
    rw [hcore]
    rfl
  rw [hrun, gdtExec, if_pos hax, Trace.run_cons, GdtMachine.act]
  cases gdtAct gdtAddr others (m.gdt, m.file) .ltr <;> rfl

end

/-! ### The kernel's segments -/

attribute [local instance] entriesNeZero

/-- Entry 1, accessed: a present 64-bit code segment of ring 0. -/
def kernelCode : Descriptor := 0x00AF9B000000FFFF

/-- Entry 2, accessed: a present, writable data segment of ring 0. -/
def kernelData : Descriptor := 0x00AF93000000FFFF

def kernelSeg : Seg → SegReg
  | .cs => ⟨0x08, kernelCode⟩
  | _ => ⟨0x10, kernelData⟩

def CodeReady (gdt : Gdt) : Prop := Descriptor.access (gdt 1).bits = kernelCode

def DataReady (gdt : Gdt) : Prop := Descriptor.access (gdt 2).bits = kernelData

section
variable {gdtAddr tss : Word} {others : Word → Nat → Descriptor} {gdt gdt' : Gdt} {file file' : SegFile} {d : Descriptor}
variable {base : Word} {selector : BitVec 16} {i : Fin 7} {seg : Seg}

/-! #### The descriptors -/

theorem bits_accessed (d : GdtDesc) : ({ d with access := d.access ||| 1 } : GdtDesc).bits = Descriptor.access d.bits := by
  have hone : ∀ k, (1 : BitVec 8).getLsbD k = decide (k = 0) := fun k => BitVec.getLsbD_one.trans (by simp)
  apply BitVec.eq_of_getLsbD_eq
  intro i hi
  rw [Descriptor.access, BitVec.getLsbD_or, Descriptor.getLsbD_accessedBit]
  simp only [GdtDesc.bits, BitVec.getLsbD_append, BitVec.getLsbD_or, hone]
  grind

/-- The processor changes nothing but the accessed bit. -/
theorem access_markAccessed : Descriptor.access (markAccessed gdtAddr gdt base selector i).bits = Descriptor.access (gdt i).bits := by
  unfold markAccessed
  split
  · next h =>
    by_cases hi : i = ⟨index selector, h.2.1⟩
    · subst hi
      rw [Function.update_self, bits_accessed, Descriptor.access_access]
    · rw [Function.update_of_ne hi]
  · rfl

theorem markAccessed_of_ne (h : i.val ≠ index selector) : markAccessed gdtAddr gdt base selector i = gdt i := by
  unfold markAccessed
  split
  · exact Function.update_of_ne (fun hi => h (congrArg Fin.val hi)) _ _
  · rfl

theorem codeAllowed_of_access (h : d.access = kernelCode) : SegFile.codeAllowed 0 d = true := by
  rcases Descriptor.eq_of_access_eq h with rfl | rfl <;> decide

/-! #### The loads -/

theorem tableAt_gdt (gdt : Gdt) (i : Fin 7) : tableAt gdtAddr others gdt gdtAddr i = (gdt i).bits := dif_pos ⟨rfl, i.isLt⟩

/-- Every selector of the seven entries is inside of the limit. -/
theorem index_in_limit (h : index selector < 7) : 8 * index selector + 7 ≤ gdtrLimit.toNat := by
  have hlimit : gdtrLimit.toNat = 55 := rfl
  omega

theorem load_gdt {allowed : Descriptor → Bool} (hgdtr : file.gdtr = ⟨gdtrLimit, gdtAddr⟩) (hindex : index selector = i)
    (hlocal : selector.getLsbD 2 = false) : file.load (tableAt gdtAddr others gdt gdtAddr) allowed seg selector =
      if allowed (gdt i).bits = true then some (file.set seg ⟨selector, Descriptor.access (gdt i).bits⟩) else none := by
  have hentry : tableAt gdtAddr others gdt gdtAddr (index selector) = (gdt i).bits := by
    rw [hindex]
    exact tableAt_gdt gdt i
  have hlimit : 8 * index selector + 7 ≤ file.gdtr.limit.toNat := by
    rw [hgdtr]
    exact index_in_limit (by rw [hindex]; exact i.isLt)
  rw [SegFile.load, hentry]
  by_cases hallowed : allowed (gdt i).bits = true
  · rw [if_pos ⟨hlocal, hlimit, hallowed⟩, if_pos hallowed]
  · rw [if_neg fun h => hallowed h.2.2, if_neg hallowed]

/-- The descriptor may be loaded as a data segment and as the stack in ring 0. -/
def DataAllowed (d : Descriptor) : Prop := SegFile.dataAllowed 0 0x10 d = true ∧ SegFile.stackAllowed 0 0x10 d = true

theorem dataAllowed_of_access (h : d.access = kernelData) : DataAllowed d := by
  rcases Descriptor.eq_of_access_eq h with rfl | rfl <;> exact ⟨by decide, by decide⟩

theorem mov_data (hgdtr : file.gdtr = ⟨gdtrLimit, gdtAddr⟩) (hcpl : file.cpl = 0) (hdata : DataAllowed (gdt 2).bits)
    (hseg : seg ≠ .cs) : file.mov (tableAt gdtAddr others gdt gdtAddr) seg 0x10 =
      some (file.set seg ⟨0x10, Descriptor.access (gdt 2).bits⟩) := by
  have hload : ∀ {allowed : Descriptor → Bool}, allowed (gdt 2).bits = true →
      file.load (tableAt gdtAddr others gdt gdtAddr) allowed seg 0x10 =
        some (file.set seg ⟨0x10, Descriptor.access (gdt 2).bits⟩) := fun h => by
    rw [load_gdt (i := 2) hgdtr rfl rfl, if_pos h]
  rw [SegFile.mov.eq_def, hcpl]
  cases seg with
  | cs => exact absurd rfl hseg
  | ss => exact hload hdata.2
  | ds => exact hload hdata.1
  | es => exact hload hdata.1
  | fs => exact hload hdata.1
  | gs => exact hload hdata.1

/-- The load of `cs` with the kernel's code segment. -/
def loadCode (gdt : Gdt) (file : SegFile) : Option SegFile :=
  if SegFile.codeAllowed 0 (gdt 1).bits = true then some (file.set .cs ⟨0x08, Descriptor.access (gdt 1).bits⟩) else none

theorem farReturn_code (hgdtr : file.gdtr = ⟨gdtrLimit, gdtAddr⟩) (hcpl : file.cpl = 0) :
    file.farReturn (tableAt gdtAddr others gdt gdtAddr) 0x08 = loadCode gdt file := by
  rw [SegFile.farReturn, hcpl, if_pos (by decide)]
  exact load_gdt (i := 1) hgdtr rfl rfl

theorem enterGate_code (hgdtr : file.gdtr = ⟨gdtrLimit, gdtAddr⟩) (hcpl : file.cpl = 0) :
    file.enterGate (tableAt gdtAddr others gdt gdtAddr) 0x08 = loadCode gdt file := by
  rw [SegFile.enterGate, hcpl, if_neg (by decide)]
  exact load_gdt (i := 1) hgdtr rfl rfl

theorem cpl_set_cs {d : Descriptor} : (file.set .cs ⟨0x08, d⟩).cpl = 0 := by
  have hrpl : rpl 0x08 = 0 := by decide
  rw [SegFile.cpl, SegFile.seg_set]
  exact hrpl

theorem iret_kernel (hgdtr : file.gdtr = ⟨gdtrLimit, gdtAddr⟩) (hcpl : file.cpl = 0) (hdata : DataAllowed (gdt 2).bits) :
    file.iret 0x08 0x10 (tableAt gdtAddr others gdt gdtAddr) =
      (loadCode gdt file).map fun f => f.set .ss ⟨0x10, Descriptor.access (gdt 2).bits⟩ := by
  rw [SegFile.iret, farReturn_code hgdtr hcpl, loadCode]
  split
  · have hgdtr₁ : (file.set .cs ⟨0x08, Descriptor.access (gdt 1).bits⟩).gdtr = ⟨gdtrLimit, gdtAddr⟩ := hgdtr
    exact mov_data hgdtr₁ cpl_set_cs hdata (show Seg.ss ≠ .cs by decide)
  · rfl

/-! #### `s_setgdt` -/

theorem gdtAct_mov (hgdtr : file.gdtr = ⟨gdtrLimit, gdtAddr⟩) (hcpl : file.cpl = 0) (hdata : DataAllowed (gdt 2).bits)
    (hseg : seg ≠ .cs) : gdtAct gdtAddr others (gdt, file) (.mov seg 0x10) =
      some (markAccessed gdtAddr gdt gdtAddr 0x10, file.set seg ⟨0x10, Descriptor.access (gdt 2).bits⟩) := by
  rw [gdtAct]
  simp only [hgdtr]
  rw [mov_data hgdtr hcpl hdata hseg]
  rfl

theorem gdtAct_retfq (hgdtr : file.gdtr = ⟨gdtrLimit, gdtAddr⟩) (hcpl : file.cpl = 0) :
    gdtAct gdtAddr others (gdt, file) (.retfq 0x08) =
      (loadCode gdt file).map fun f => (markAccessed gdtAddr gdt gdtAddr 0x08, f) := by
  rw [gdtAct]
  simp only [hgdtr]
  rw [farReturn_code hgdtr hcpl]

theorem kernelSeg_data (hseg : seg ≠ .cs) : kernelSeg seg = ⟨0x10, kernelData⟩ := by
  cases seg with
  | cs => exact absurd rfl hseg
  | _ => rfl

/-- The loads of the data segments. -/
theorem run_movs (others : Word → Nat → Descriptor) {segs : List Seg} (hsegs : ∀ seg ∈ segs, seg ≠ .cs)
    (hgdtr : file.gdtr = ⟨gdtrLimit, gdtAddr⟩) (hcpl : file.cpl = 0) (hdata : DataReady gdt) : ∃ gdt' file',
      run (gdtAct gdtAddr others) (gdt, file) (segs.map fun seg => .mov seg 0x10) = some (gdt', file') ∧
      (CodeReady gdt → CodeReady gdt') ∧ gdt' 5 = gdt 5 ∧ file'.gdtr = file.gdtr ∧
      (∀ seg ∈ segs, file'.seg seg = kernelSeg seg) ∧ ∀ seg ∉ segs, file'.seg seg = file.seg seg := by
  induction segs generalizing gdt file with
  | nil => exact ⟨gdt, file, rfl, id, rfl, rfl, nofun, fun _ _ => rfl⟩
  | cons seg segs ih =>
    have hseg := hsegs seg List.mem_cons_self
    have hcpl' : (file.set seg (kernelSeg seg)).cpl = 0 := by
      rw [← hcpl, SegFile.cpl, SegFile.cpl, SegFile.seg_set_of_ne hseg.symm]
    have hgdtr₁ : (file.set seg (kernelSeg seg)).gdtr = ⟨gdtrLimit, gdtAddr⟩ := hgdtr
    have hdata' : DataReady (markAccessed gdtAddr gdt gdtAddr 0x10) := access_markAccessed.trans hdata
    obtain ⟨gdt', file', hrun, hcode, hfive, hgdtr', hin, hout⟩ := ih (fun seg hs => hsegs seg (List.mem_cons_of_mem _ hs))
      hgdtr₁ hcpl' hdata'
    refine ⟨gdt', file', ?_, fun h => hcode (access_markAccessed.trans h), ?_, hgdtr', fun seg' hs => ?_, fun seg' hs => ?_⟩
    · rw [List.map_cons, Trace.run_cons, gdtAct_mov hgdtr hcpl (dataAllowed_of_access hdata) hseg,
        show Descriptor.access (gdt 2).bits = kernelData from hdata, ← kernelSeg_data hseg]
      exact hrun
    · rw [hfive]
      exact markAccessed_of_ne (by decide)
    · by_cases hmem : seg' ∈ segs
      · exact hin seg' hmem
      · obtain rfl : seg' = seg := (List.mem_cons.mp hs).resolve_right hmem
        rw [hout seg' hmem, SegFile.seg_set]
    · rw [hout seg' fun h => hs (List.mem_cons_of_mem _ h)]
      exact SegFile.seg_set_of_ne fun h => hs (List.mem_cons.mpr (Or.inl h))

theorem loadCode_ready (hcode : CodeReady gdt) : loadCode gdt file = some (file.set .cs (kernelSeg .cs)) := by
  rw [loadCode, if_pos (codeAllowed_of_access hcode), show Descriptor.access (gdt 1).bits = kernelCode from hcode]
  rfl

/-- `s_setgdt` with the descriptors of `gdt_init`. -/
theorem run_sSetgdtActions (hcpl : file.cpl = 0) (hcode : CodeReady gdt) (hdata : DataReady gdt) : ∃ gdt' file',
    run (gdtAct gdtAddr others) (gdt, file) (sSetgdtActions gdtrLimit gdtAddr) = some (gdt', file') ∧ gdt' 5 = gdt 5 ∧
      file'.gdtr = ⟨gdtrLimit, gdtAddr⟩ ∧ ∀ seg, file'.seg seg = kernelSeg seg := by
  have hcpl' : SegFile.cpl { file with gdtr := ⟨gdtrLimit, gdtAddr⟩ } = 0 := by
    rw [SegFile.cpl] at hcpl ⊢
    exact hcpl
  have hdatas : ∀ seg ∈ [Seg.ds, .es, .gs, .fs, .ss], seg ≠ .cs := by decide
  have hgdtr₁ : SegFile.gdtr { file with gdtr := ⟨gdtrLimit, gdtAddr⟩ } = ⟨gdtrLimit, gdtAddr⟩ := rfl
  obtain ⟨gdt', file', hrun, hcode', hfive, hgdtr, hin, hout⟩ := run_movs others hdatas hgdtr₁ hcpl' hdata
  have hcpl₂ : file'.cpl = 0 := by
    rw [SegFile.cpl, hout .cs (by decide)]
    exact hcpl'
  refine ⟨markAccessed gdtAddr gdt' gdtAddr 0x08, file'.set .cs (kernelSeg .cs), ?_, ?_, hgdtr, fun seg => ?_⟩
  · have hsplit : sSetgdtActions gdtrLimit gdtAddr = .lgdt ⟨gdtrLimit, gdtAddr⟩ ::
        ([Seg.ds, .es, .gs, .fs, .ss].map (fun seg => .mov seg 0x10) ++ [.retfq 0x08]) := rfl
    have hlgdt : gdtAct gdtAddr others (gdt, file) (.lgdt ⟨gdtrLimit, gdtAddr⟩) =
        some (gdt, { file with gdtr := ⟨gdtrLimit, gdtAddr⟩ }) := rfl
    rw [hsplit, Trace.run_cons, hlgdt, Option.bind_some, Trace.run_append, hrun, Option.bind_some, Trace.run_cons,
      gdtAct_retfq hgdtr hcpl₂, loadCode_ready (hcode' hcode)]
    rfl
  · rw [markAccessed_of_ne (by decide), hfive]
  · by_cases hcs : seg = .cs
    · subst hcs
      exact SegFile.seg_set
    · rw [SegFile.seg_set_of_ne hcs]
      refine hin seg ?_
      revert hcs
      cases seg <;> decide

theorem gdtSetEntry_of_ne {num : Fin 7} {b limit : Word} {access granularity : BitVec 8} (h : i ≠ num) :
    gdtSetEntry gdt num b limit access granularity i = gdt i := Function.update_of_ne h _ _

theorem codeReady_gdtInitEntries (tss : Word) (gdt : Gdt) : CodeReady (gdtInitEntries tss gdt) := by
  rw [CodeReady, gdtInitEntries, gdtSetEntry_of_ne (by decide), gdtSetEntry_of_ne (by decide), gdtSetEntry_of_ne (by decide),
    gdtSetEntry_of_ne (by decide), gdtSetEntry_eq, Function.update_self]
  decide

theorem dataReady_gdtInitEntries (tss : Word) (gdt : Gdt) : DataReady (gdtInitEntries tss gdt) := by
  rw [DataReady, gdtInitEntries, gdtSetEntry_of_ne (by decide), gdtSetEntry_of_ne (by decide), gdtSetEntry_of_ne (by decide),
    gdtSetEntry_eq, Function.update_self]
  decide

/-- All of `gdt_init` on one processor, whatever its segments were: both calls of `gdt.asm` return, on the kernel's segments
    and with the TSS loaded. -/
theorem gdtInit_returns (gdtAddr tss : Word) (others : Word → Nat → Descriptor) (f : Callee) {m : GdtMachine} {gdt : Gdt}
    {ret : Word} {l : List Word} (hgdt : m.gdt = gdtInitEntries tss gdt) (hlimit : (m.core.regs .rdi).setWidth 16 = gdtrLimit)
    (hbase : m.core.regs .rsi = gdtAddr) (hcpl : m.file.cpl = 0) (hstack : OnStack m.core (ret :: l))
    (hl : l.length + 2 ≤ 2 ^ 32) : ∃ m', gdtRun gdtAddr others f m sSetgdt = some m' ∧ Returned ret l m.core m'.core ∧
      m'.file.gdtr = ⟨gdtrLimit, gdtAddr⟩ ∧ (∀ seg, m'.file.seg seg = kernelSeg seg) ∧
      ∀ core ret' l', OnStack core (ret' :: l') → ∃ m'', gdtRun gdtAddr others f { m' with core := core } sSettss = some m'' ∧
        Returned ret' l' core m''.core ∧ m''.file = m'.file ∧ (m''.gdt 5).availableTss = false := by
  obtain ⟨core', gdtr, hret, hrun⟩ := sSetgdt_returns gdtAddr others f hstack hl
  obtain ⟨gdt', file', hacts, hfive, hgdtr, hsegs⟩ := run_sSetgdtActions hcpl (codeReady_gdtInitEntries tss gdt)
    (dataReady_gdtInitEntries tss gdt)
  rw [hgdt, hlimit, hbase, hacts] at hrun
  refine ⟨_, hrun, hret, hgdtr, hsegs, fun core ret' l' hcore => ?_⟩
  have havail : (gdt' 5).availableTss = true := by
    rw [hfive]
    exact availableTss_gdtInitEntries tss gdt
  obtain ⟨loaded, hltr⟩ : ∃ loaded, ltr gdt' = some loaded := ⟨_, if_pos havail⟩
  obtain ⟨core'', hret', hrun'⟩ := sSettss_returns gdtAddr others f (m := ⟨core, gdtr, gdt', file'⟩) hcore
  have hact : gdtAct gdtAddr others (gdt', file') .ltr = some (loaded, file') := by
    rw [gdtAct, hltr]
    rfl
  rw [Trace.run_cons, hact] at hrun'
  exact ⟨_, hrun', hret', rfl, (ltr_eq_some hltr).2⟩

/-- A stack at 0x8000 and the arguments of `s_setgdt`. -/
def callerCore : Machine where
  regs := Function.update (Function.update (fun _ => 0) .rdi 55) .rsi 0xffffffff80010000
  rsp := 0x8000
  rip := 0
  cs := 0
  ss := 0
  rflags := 0
  mem := fun _ => 0

/-- The call of `s_setgdt` with Limine's segments. -/
def setgdtCall : GdtMachine where
  core := callerCore.push 0xffffffff80001234
  gdtr := ⟨0, 0⟩
  gdt := gdtInitEntries 0xffffffff80020000 gdtStart
  file := ⟨⟨0x37, 0xffff800000001000⟩, fun _ => ⟨0x28, 0⟩⟩

theorem gdtInit_returns_sample : ∃ m', gdtRun 0xffffffff80010000 (fun _ _ => 0) ⟨0, id⟩ setgdtCall sSetgdt = some m' ∧
    m'.core.rip = 0xffffffff80001234 ∧ m'.core.rsp = setgdtCall.core.rsp + 8 ∧ (m'.file.seg .cs).selector = 0x08 := by
  have hempty : OnStack callerCore [] := ⟨by decide, by decide, nofun⟩
  have hstack : OnStack setgdtCall.core [0xffffffff80001234] := hempty.push (by decide)
  obtain ⟨m', hrun, hret, -, hsegs, -⟩ := gdtInit_returns 0xffffffff80010000 0xffffffff80020000 (fun _ _ => 0) ⟨0, id⟩
    (m := setgdtCall) rfl (by decide) (by decide) (by decide) hstack (by decide)
  refine ⟨m', hrun, hret.rip, hret.rsp, ?_⟩
  rw [hsegs]
  rfl

end

end Neobird64
