import Neobird64.Theorems.VmmInit

/-! The virtual ranges of `vmm_init`: what the boot protocol and the linker script promise of them, and
    which calls of `vmm_map_page` a page belongs to. -/

namespace Neobird64
open State Paging PathTree

namespace Span

/-- The byte at physical address `a` belongs to the span. -/
def Holds (sp : Span) (a : Nat) : Prop := sp.base.toNat ≤ a ∧ a < sp.base.toNat + sp.length.toNat

/-- The loop over the span maps the page `P`. -/
def visits (sp : Span) (P : Nat) : Bool :=
  sp.base.toNat / 4096 ≤ P ∧ P < sp.base.toNat / 4096 + (sp.length.toNat + 4095) / 4096

end Span

/-- The page of the LAPIC. -/
def lapicSpan (s : State) : Span where
  base := alignDown (s.lapicAddr.setWidth 64)
  length := 4096
  flags := PTE_BIT_PRESENT ||| PTE_BIT_READ_WRITE

/-- All that `vmm_init` maps at HHDM addresses, in order. -/
def spans (s : State) : List Span := bitmapSpan s :: (s.memmap.filterMap entrySpan ++ [lapicSpan s])

/-- What `linker.ld` promises: the sections follow each other in the higher half, with a page between two
    of them. -/
structure SectionsOk (sec : Sections) : Prop where
  high : High sec.textStart
  text : sec.textStart.toNat ≤ sec.textEnd.toNat
  rodataGap : sec.textEnd.toNat + 4096 ≤ sec.rodataStart.toNat
  rodata : sec.rodataStart.toNat ≤ sec.rodataEnd.toNat
  dataGap : sec.rodataEnd.toNat + 4096 ≤ sec.dataStart.toNat
  data : sec.dataStart.toNat ≤ sec.dataEnd.toNat
  top : sec.dataEnd.toNat + 4095 < 2 ^ 64

/-- `va` is in a page of the section from `start` to `stop`. -/
def InSection (start stop va : Word) : Prop :=
  (alignDown start).toNat ≤ va.toNat ∧ va.toNat < (alignUp stop).toNat

/-- The HHDM is page-aligned in the higher half, and every byte that is mapped through it has its address
    there, in no page of the kernel's image. -/
structure HhdmLayout (b : Boot) (s : State) : Prop where
  aligned : b.hhdm.toNat % 4096 = 0
  high : High b.hhdm
  sections : SectionsOk b.sections
  window : ∀ sp ∈ spans s, ∀ a, sp.Holds a → b.hhdm.toNat + a < 2 ^ 64 ∧ a < 2 ^ 52 ∧
    (b.hhdm.toNat + a < (alignDown b.sections.textStart).toNat ∨ (alignUp b.sections.dataEnd).toNat ≤ b.hhdm.toNat + a)

/-! ### The pages of the loops -/

section
variable {s : State} {b : Boot} {k : KernelAddress} {sp : Span} {off start stop flags va : Word} {op : MapOp} {a P : Nat}

/-- A call for a span maps a byte of it, at a multiple of the page size from its base. -/
theorem Span.mem_ops (h : op ∈ sp.ops off) : ∃ i, sp.Holds (sp.base.toNat + 4096 * i) ∧
    i < (sp.length.toNat + 4095) / 4096 ∧ op.va = sp.base + BitVec.ofNat 64 (4096 * i) + off ∧
    op.pa = sp.base + BitVec.ofNat 64 (4096 * i) ∧ op.flags = sp.flags := by
  obtain ⟨j, hj, rfl⟩ := List.mem_map.mp h
  obtain ⟨i, hji, hi⟩ := mem_pageSteps.mp hj
  have hzero : (0 : Word).toNat = 0 := rfl
  have hji' : j = BitVec.ofNat 64 (4096 * i) := by
    have hlt := sp.length.isLt
    apply BitVec.eq_of_toNat_eq
    rw [hji, BitVec.toNat_ofNat]
    omega
  rw [hzero] at hi
  refine ⟨i, ⟨by omega, by omega⟩, by omega, ?_, ?_, rfl⟩ <;> rw [hji']

theorem Span.ops_mem (sp : Span) (off : Word) {i : Nat} (hi : i < (sp.length.toNat + 4095) / 4096) :
    (⟨sp.base + BitVec.ofNat 64 (4096 * i) + off, sp.base + BitVec.ofNat 64 (4096 * i), sp.flags⟩ : MapOp) ∈ sp.ops off := by
  have hlt := sp.length.isLt
  have hzero : (0 : Word).toNat = 0 := rfl
  refine List.mem_map.mpr ⟨_, mem_pageSteps.mpr ⟨i, ?_, by omega⟩, rfl⟩
  rw [BitVec.toNat_ofNat]
  omega

theorem mem_sectionOps : op ∈ sectionOps k start stop flags ↔
    op.va.toNat % 4096 = 0 ∧ InSection start stop op.va ∧ op.pa = op.va - k.virtualBase + k.physicalBase ∧
      op.flags = flags := by
  have hal : (alignDown start).toNat % 4096 = 0 := by
    rw [alignDown_toNat]
    omega
  constructor
  · intro h
    obtain ⟨addr, haddr, rfl⟩ := List.mem_map.mp h
    obtain ⟨i, hx, hi⟩ := mem_pageSteps.mp haddr
    exact ⟨by simp only; omega, ⟨by simp only; omega, by simp only; omega⟩, rfl, rfl⟩
  · rintro ⟨hmod, ⟨hlo, hhi⟩, hpa, hfl⟩
    refine List.mem_map.mpr ⟨op.va, mem_pageSteps.mpr
      ⟨(op.va.toNat - (alignDown start).toNat) / 4096, by omega, by omega⟩, ?_⟩
    rw [← hpa, ← hfl]

theorem mem_identityOps : op ∈ identityOps ↔ op.va.toNat % 4096 = 0 ∧ 0x1000 ≤ op.va.toNat ∧ op.va.toNat < 2 ^ 32 ∧
    op.pa = op.va ∧ op.flags = PTE_BIT_PRESENT ||| PTE_BIT_READ_WRITE ||| PTE_BIT_EXECUTE_DISABLE := by
  have hlo : (0x1000 : Word).toNat = 4096 := rfl
  have hhi : (0x100000000 : Word).toNat = 2 ^ 32 := rfl
  constructor
  · intro h
    obtain ⟨base, hbase, rfl⟩ := List.mem_map.mp h
    obtain ⟨i, hx, hi⟩ := mem_pageSteps.mp hbase
    exact ⟨by simp only; omega, by simp only; omega, by simp only; omega, rfl, rfl⟩
  · rintro ⟨hmod, hlo', hhi', hpa, hfl⟩
    refine List.mem_map.mpr ⟨op.va, mem_pageSteps.mpr ⟨(op.va.toNat - 4096) / 4096, by omega, by omega⟩, ?_⟩
    rw [← hfl]
    cases op
    cases hpa
    rfl

theorem lapicOp_eq (hal : s.hhdmoffset.toNat % 4096 = 0) : [lapicOp s] = (lapicSpan s).ops s.hhdmoffset := by
  have hsteps : pageSteps 0 4096 = [0] := by decide
  have hva : alignDown (s.lapicAddr.setWidth 64 + s.hhdmoffset) = alignDown (s.lapicAddr.setWidth 64) + s.hhdmoffset := by
    apply BitVec.eq_of_toNat_eq
    rw [alignDown_toNat, BitVec.toNat_add, BitVec.toNat_add, alignDown_toNat]
    omega
  have hpa : alignDown (s.lapicAddr.setWidth 64) + 0 = alignDown (s.lapicAddr.setWidth 64) := BitVec.add_zero _
  rw [Span.ops, lapicSpan, hsteps, List.map_singleton, lapicOp, hva, hpa]

theorem flatMap_spans (hal : s.hhdmoffset.toNat % 4096 = 0) : (spans s).flatMap (Span.ops s.hhdmoffset) =
    (bitmapSpan s).ops s.hhdmoffset ++ (entryOps s ++ [lapicOp s]) := by
  rw [spans, List.flatMap_cons, List.flatMap_append, entryOps, lapicOp_eq hal, List.flatMap_singleton]

/-- The calls of `vmm_init`: those for the spans, with the kernel and the low 4 GiB before the last. -/
theorem mem_initOps (hal : s.hhdmoffset.toNat % 4096 = 0) : op ∈ initOps k b.sections s ↔
    (∃ sp ∈ spans s, op ∈ sp.ops s.hhdmoffset) ∨ op ∈ kernelOps k b.sections ∨ op ∈ identityOps := by
  rw [← List.mem_flatMap, flatMap_spans hal, initOps]
  simp only [List.mem_append]
  constructor
  · rintro (h | h | h | h | h)
    exacts [Or.inl (Or.inl h), Or.inl (Or.inr (Or.inl h)), Or.inr (Or.inl h), Or.inr (Or.inr h),
      Or.inl (Or.inr (Or.inr h))]
  · rintro ((h | h | h) | h | h)
    exacts [Or.inl h, Or.inr (Or.inl h), Or.inr (Or.inr (Or.inr (Or.inr h))), Or.inr (Or.inr (Or.inl h)),
      Or.inr (Or.inr (Or.inr (Or.inl h)))]

end

/-! ### Calls and pages under the layout -/

namespace HhdmLayout
variable {s : State} {b : Boot} {k : KernelAddress} {sp : Span} {va : Word} {op : MapOp} {a P : Nat}
variable (h : HhdmLayout b s)
include h

theorem directVa (hsp : sp ∈ spans s) (ha : sp.Holds a) : (BitVec.ofNat 64 (b.hhdm.toNat + a)).toNat = b.hhdm.toNat + a := by
  have := (h.window sp hsp a ha).1
  rw [BitVec.toNat_ofNat]
  omega

theorem directHigh (hsp : sp ∈ spans s) (ha : sp.Holds a) : High (BitVec.ofNat 64 (b.hhdm.toNat + a)) := by
  have hhigh := h.high
  rw [High] at hhigh ⊢
  rw [h.directVa hsp ha]
  omega

theorem mem_ops (hsp : sp ∈ spans s) (hop : op ∈ sp.ops b.hhdm) : ∃ i, sp.Holds (sp.base.toNat + 4096 * i) ∧
    i < (sp.length.toNat + 4095) / 4096 ∧ op.va.toNat = b.hhdm.toNat + (sp.base.toNat + 4096 * i) ∧
    op.pa.toNat = sp.base.toNat + 4096 * i ∧ op.flags = sp.flags := by
  obtain ⟨i, hi, hlt, hva, hpa, hfl⟩ := Span.mem_ops hop
  obtain ⟨hwrap, hphys, -⟩ := h.window sp hsp _ hi
  refine ⟨i, hi, hlt, ?_, ?_, hfl⟩
  · rw [hva, BitVec.toNat_add, BitVec.toNat_add, BitVec.toNat_ofNat]
    omega
  · rw [hpa, BitVec.toNat_add, BitVec.toNat_ofNat]
    omega

theorem opHigh (hsp : sp ∈ spans s) (hop : op ∈ sp.ops b.hhdm) : High op.va := by
  obtain ⟨i, hi, -, hva, -⟩ := h.mem_ops hsp hop
  have hhigh := h.high
  rw [High] at hhigh ⊢
  omega

theorem sectionHigh (hva : (alignDown b.sections.textStart).toNat ≤ va.toNat) : High va := by
  have hhigh := h.sections.high
  rw [alignDown_toNat] at hva
  rw [High] at hhigh ⊢
  omega

theorem mem_kernelOps (hop : op ∈ kernelOps k b.sections) : op.va.toNat % 4096 = 0 ∧
    (alignDown b.sections.textStart).toNat ≤ op.va.toNat ∧ op.va.toNat < (alignUp b.sections.dataEnd).toNat := by
  have hs := h.sections
  have h1 := hs.text
  have h2 := hs.rodataGap
  have h3 := hs.rodata
  have h4 := hs.dataGap
  have h5 := hs.data
  have h6 := hs.top
  rw [kernelOps, List.mem_append, List.mem_append] at hop
  rcases hop with hop | hop | hop <;> obtain ⟨hmod, ⟨hlo, hhi⟩, -⟩ := mem_sectionOps.mp hop <;>
    rw [alignDown_toNat] at hlo ⊢ <;> rw [alignUp_toNat (by omega)] at hhi ⊢ <;> omega

end HhdmLayout

end Neobird64
