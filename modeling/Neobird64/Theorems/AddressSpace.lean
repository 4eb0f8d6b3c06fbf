import Neobird64.Theorems.Layout
import Neobird64.Theorems.InitAcpi

/-! The address space that `vmm_init` loads. Under the layout no two of its loops disagree on a page, so
    every page has the one translation that its loop asks for, and a page of no loop has none. -/

namespace Neobird64
open State Paging PathTree

/-- The entries that the boot protocol keeps page-aligned and apart from all others. -/
def MemmapEntry.Owned (e : MemmapEntry) : Prop := e.type = .usable ∨ e.type = .bootloaderReclaimable

/-- What the boot protocol promises of the memory map, below 8 TiB. -/
structure EntriesOk (M : List MemmapEntry) : Prop where
  aligned : ∀ e ∈ M, e.Owned → e.base.toNat % 4096 = 0 ∧ e.length.toNat % 4096 = 0
  below : ∀ e ∈ M, e.base.toNat + e.length.toNat ≤ 2 ^ 43
  disjoint : M.Pairwise fun e e' => e.Owned ∨ e'.Owned → ∀ a, ¬(e.Holds a ∧ e'.Holds a)

/-- The kernel's image is page-aligned, in physical memory. -/
structure KernelOk (k : KernelAddress) (sec : Sections) : Prop where
  physicalBase : k.physicalBase.toNat % 4096 = 0
  virtualBase : k.virtualBase.toNat % 4096 = 0
  phys : ∀ va, InSection sec.textStart sec.dataEnd va → (va - k.virtualBase + k.physicalBase).toNat < 2 ^ 52

/-- The address space of `vmm_init`: the low 4 GiB without page 0, the sections of the kernel, the HHDM
    windows of usable and boot-loader memory, and nothing outside of the ranges that it maps. -/
structure InitMap (b : Boot) (k : KernelAddress) (s : State) : Prop where
  identity : ∀ va, 0x1000 ≤ va.toNat → va.toNat < 2 ^ 32 → walk s.mem s.cr3.toNat va =
    some (pageWith (alignDown va) (PTE_BIT_PRESENT ||| PTE_BIT_READ_WRITE ||| PTE_BIT_EXECUTE_DISABLE))
  text : ∀ va, InSection b.sections.textStart b.sections.textEnd va → walk s.mem s.cr3.toNat va =
    some (pageWith (alignDown va - k.virtualBase + k.physicalBase) PTE_BIT_PRESENT)
  rodata : ∀ va, InSection b.sections.rodataStart b.sections.rodataEnd va → walk s.mem s.cr3.toNat va =
    some (pageWith (alignDown va - k.virtualBase + k.physicalBase) (PTE_BIT_PRESENT ||| PTE_BIT_EXECUTE_DISABLE))
  data : ∀ va, InSection b.sections.dataStart b.sections.dataEnd va → walk s.mem s.cr3.toNat va =
    some (pageWith (alignDown va - k.virtualBase + k.physicalBase)
      (PTE_BIT_PRESENT ||| PTE_BIT_READ_WRITE ||| PTE_BIT_EXECUTE_DISABLE))
  direct : ∀ e ∈ s.memmap, e.Owned → ∀ a, e.Holds a →
    walk s.mem s.cr3.toNat (BitVec.ofNat 64 (b.hhdm.toNat + a)) =
      some (pageWith (alignDown (BitVec.ofNat 64 a)) (PTE_BIT_PRESENT ||| PTE_BIT_READ_WRITE))
  pageZero : ∀ va, va.toNat < 0x1000 → walk s.mem s.cr3.toNat va = none
  unmapped : ∀ va, Low va ∨ High va → ¬(va.toNat < 2 ^ 32) →
    ¬InSection b.sections.textStart b.sections.textEnd va →
    ¬InSection b.sections.rodataStart b.sections.rodataEnd va →
    ¬InSection b.sections.dataStart b.sections.dataEnd va →
    (∀ sp ∈ spans s, ∀ a, sp.Holds a → va.toNat / 4096 ≠ (b.hhdm.toNat + a) / 4096) →
    walk s.mem s.cr3.toNat va = none

/-! ### The memory map -/

section
variable {M : List MemmapEntry} {e e' : MemmapEntry} {s : State} {b : Boot} {d : Devices} {k : KernelAddress} {sp : Span} {a : Nat}

theorem EntriesOk.usableOk (h : EntriesOk M) : UsableOk M where
  aligned e he hu := h.aligned e he (Or.inl hu)
  below e he _ := h.below e he
  disjoint := h.disjoint.imp fun hd hu _ a => hd (Or.inl (Or.inl hu)) a

theorem EntriesOk.eq_of_holds (h : EntriesOk M) (he : e ∈ M) (he' : e' ∈ M) (ho : e.Owned) (ha : e.Holds a)
    (ha' : e'.Holds a) : e = e' := by
  by_contra hne
  have hsymm : Std.Symm fun e e' : MemmapEntry => e.Owned ∨ e'.Owned → ∀ a, ¬(e.Holds a ∧ e'.Holds a) :=
    ⟨fun _ _ h ho a hh => h ho.symm a hh.symm⟩
  exact h.disjoint.forall he he' hne (Or.inl ho) a ⟨ha, ha'⟩

theorem mem_spans : sp ∈ spans s ↔ sp = bitmapSpan s ∨ (∃ e ∈ s.memmap, entrySpan e = some sp) ∨ sp = lapicSpan s := by
  simp only [spans, List.mem_cons, List.mem_append, List.mem_filterMap, List.not_mem_nil, or_false]

theorem entrySpan_eq_some : entrySpan e = some sp ↔ ∃ flags, entryFlags e.type = some flags ∧
    sp = ⟨e.base, e.length, flags⟩ := by
  rw [entrySpan, Option.map_eq_some_iff]
  exact exists_congr fun flags => and_congr_right fun _ => eq_comm

theorem entrySpan_of_owned (h : e.Owned) : entrySpan e = some ⟨e.base, e.length, PTE_BIT_PRESENT ||| PTE_BIT_READ_WRITE⟩ := by
  rcases h with h | h <;> rw [entrySpan, h] <;> rfl

/-- A layout whose bytes have HHDM addresses leaves room for the loops. -/
theorem HhdmLayout.lengthsOk (h : HhdmLayout b s) : LengthsOk s.memmap := by
  intro e he hf
  obtain ⟨flags, hflags⟩ := Option.isSome_iff_exists.mp hf
  have hsp := mem_spans.mpr (Or.inr (Or.inl ⟨e, he, entrySpan_eq_some.mpr ⟨flags, hflags, rfl⟩⟩))
  have hhigh := h.high
  rw [High] at hhigh
  by_contra hlong
  have hwin := (h.window _ hsp (e.base.toNat + e.length.toNat - 1) ⟨by simp only; omega, by simp only; omega⟩).1
  omega

end

/-! ### One page of the final map -/

theorem low_of_identity {op : MapOp} (hop : op ∈ identityOps) : Low op.va := by
  obtain ⟨-, -, hlt, -⟩ := mem_identityOps.mp hop
  rw [Low]
  omega

theorem exists_identity {va : Word} (hlo : 0x1000 ≤ va.toNat) (hhi : va.toNat < 2 ^ 32) :
    ∃ op ∈ identityOps, vpn op.va = vpn va := by
  have hdown := alignDown_toNat (x := va)
  have hop : (⟨alignDown va, alignDown va, PTE_BIT_PRESENT ||| PTE_BIT_READ_WRITE ||| PTE_BIT_EXECUTE_DISABLE⟩ : MapOp) ∈
      identityOps := mem_identityOps.mpr ⟨by simp only; omega, by simp only; omega, by simp only; omega, rfl, rfl⟩
  refine ⟨_, hop, ?_⟩
  rw [vpn_of_low (low_of_identity hop), vpn_of_low (show Low va by rw [Low]; omega)]
  simp only
  omega

/-- It has one entry for each page. -/
theorem identity_entry {op : MapOp} {va : Word} (hop : op ∈ identityOps) (hlow : Low va) (hv : vpn op.va = vpn va) :
    op.pa ||| op.flags = alignDown va ||| (PTE_BIT_PRESENT ||| PTE_BIT_READ_WRITE ||| PTE_BIT_EXECUTE_DISABLE) := by
  have hdown := alignDown_toNat (x := va)
  obtain ⟨hmod, -, -, hpa, hfl⟩ := mem_identityOps.mp hop
  rw [vpn_of_low (low_of_identity hop), vpn_of_low hlow] at hv
  have hva : op.va = alignDown va := BitVec.eq_of_toNat_eq (by omega)
  rw [hpa, hfl, hva]

namespace Booted
variable {b : Boot} {d : Devices} {M : List MemmapEntry} {k : KernelAddress} {s₀ s : State} {va e : Word} {op : MapOp}
variable (hB : Booted b M k s₀ s)
include hB

theorem leaf_of_agree (hop : op ∈ initOps k b.sections s) (hv : vpn op.va = vpn va)
    (h : ∀ op' ∈ initOps k b.sections s, vpn op'.va = vpn va → op'.pa ||| op'.flags = e) :
    leaf s.mem s.root va = e := by
  rw [hB.entries]
  refine LastWrite.apply_of_agree (List.mem_map_of_mem hop) hv fun w hw hk => ?_
  obtain ⟨op', hop', rfl⟩ := List.mem_map.mp hw
  exact h op' hop' hk

theorem leaf_of_no_call (h : ∀ op ∈ initOps k b.sections s, vpn op.va ≠ vpn va) : leaf s.mem s.root va = 0 := by
  rw [hB.entries]
  refine LastWrite.apply_of_not_mem fun w hw => ?_
  obtain ⟨op, hop, rfl⟩ := List.mem_map.mp hw
  exact h op hop

theorem walk_of_leaf_zero (h : leaf s.mem s.root va = 0) : walk s.mem s.cr3.toNat va = none := by
  rw [hB.cr3, hB.wf.tree.walk, h]
  rfl

/-- A span with a page of owned memory starts at a page, and maps with the flags of memory. -/
theorem span_of_owned {e : MemmapEntry} (hE : EntriesOk M) (he : e ∈ M) (ho : e.Owned) {sp : Span} (hsp : sp ∈ spans s)
    {x : Nat} (hx : sp.base.toNat ≤ x ∧ x < sp.base.toNat + sp.length.toNat) (hin : e.Holds x) :
    sp.base.toNat % 4096 = 0 ∧ sp.flags = PTE_BIT_PRESENT ||| PTE_BIT_READ_WRITE := by
  rcases mem_spans.mp hsp with hbm | ⟨e', he', hentry⟩ | hlapic
  · rw [hbm, bitmapSpan, hB.addr]
    exact ⟨hE.usableOk.usableAddr_ok.1, rfl⟩
  · obtain ⟨flags, -, hspan⟩ := entrySpan_eq_some.mp hentry
    have hx' : e'.Holds x := by
      rw [hspan] at hx
      exact hx
    rw [hB.memmap] at he'
    rw [← hE.eq_of_holds he he' ho hin hx', entrySpan_of_owned ho] at hentry
    rw [← Option.some.inj hentry]
    exact ⟨(hE.aligned e he ho).1, rfl⟩
  · rw [hlapic, lapicSpan, alignDown_toNat]
    exact ⟨by omega, rfl⟩

end Booted

namespace HhdmLayout
variable {b : Boot} {d : Devices} {M : List MemmapEntry} {k : KernelAddress} {s₀ s : State} {va : Word} {op op' : MapOp} {a : Nat}
variable (h : HhdmLayout b s)
include h

theorem span_not_kernel {sp : Span} (hsp : sp ∈ spans s) (hop : op ∈ sp.ops b.hhdm)
    (hlo : (alignDown b.sections.textStart).toNat ≤ va.toNat) (hhi : va.toNat < (alignUp b.sections.dataEnd).toNat) :
    op.va.toNat / 4096 ≠ va.toNat / 4096 := by
  obtain ⟨i, hi, -, hva, -⟩ := h.mem_ops hsp hop
  have hwin := (h.window sp hsp _ hi).2.2
  have hmod := alignUp_mod (x := b.sections.dataEnd)
  have hmod' : (alignDown b.sections.textStart).toNat % 4096 = 0 := by
    rw [alignDown_toNat]
    omega
  omega

/-- Two calls for one page of the image ask for the same. -/
theorem kernel_agree (hop : op ∈ kernelOps k b.sections) (hop' : op' ∈ kernelOps k b.sections) (hva : op.va = op'.va) :
    op.pa ||| op.flags = op'.pa ||| op'.flags := by
  have hs := h.sections
  have h1 := hs.text
  have h2 := hs.rodataGap
  have h3 := hs.rodata
  have h4 := hs.dataGap
  have h5 := hs.data
  have h6 := hs.top
  have bounds : ∀ {start stop fl : Word} {o : MapOp}, stop.toNat + 4095 < 2 ^ 64 → o ∈ sectionOps k start stop fl →
      start.toNat / 4096 * 4096 ≤ o.va.toNat ∧ o.va.toNat < (stop.toNat + 4095) / 4096 * 4096 ∧
        o.pa = o.va - k.virtualBase + k.physicalBase ∧ o.flags = fl := by
    intro start stop fl o hstop ho
    obtain ⟨-, ⟨hlo, hhi⟩, hpa, hfl⟩ := mem_sectionOps.mp ho
    rw [alignDown_toNat] at hlo
    rw [alignUp_toNat hstop] at hhi
    exact ⟨hlo, hhi, hpa, hfl⟩
  have hnat := congrArg BitVec.toNat hva
  rw [kernelOps, List.mem_append, List.mem_append] at hop hop'
  rcases hop with hop | hop | hop <;> rcases hop' with hop' | hop' | hop' <;>
    obtain ⟨hlo, hhi, hpa, hfl⟩ := bounds (by omega) hop <;>
    obtain ⟨hlo', hhi', hpa', hfl'⟩ := bounds (by omega) hop' <;>
    first
      | omega
      | rw [hpa, hpa', hfl, hfl', hva]

variable (hB : Booted b M k s₀ s)
include hB

theorem hhdm_aligned : s.hhdmoffset.toNat % 4096 = 0 := by
  rw [hB.hhdm]
  exact h.aligned

theorem ops_cases (hop : op ∈ initOps k b.sections s) :
    (∃ sp ∈ spans s, op ∈ sp.ops b.hhdm) ∨ op ∈ kernelOps k b.sections ∨ op ∈ identityOps := by
  rw [mem_initOps (h.hhdm_aligned hB), hB.hhdm] at hop
  exact hop

theorem mem_of_kernel (hop : op ∈ kernelOps k b.sections ∨ op ∈ identityOps) : op ∈ initOps k b.sections s := by
  exact (mem_initOps (h.hhdm_aligned hB)).mpr (Or.inr hop)

theorem mem_of_span {sp : Span} (hsp : sp ∈ spans s) (hop : op ∈ sp.ops b.hhdm) : op ∈ initOps k b.sections s := by
  refine (mem_initOps (h.hhdm_aligned hB)).mpr (Or.inl ⟨sp, hsp, ?_⟩)
  rw [hB.hhdm]
  exact hop

theorem leaf_identity (hlo : 0x1000 ≤ va.toNat) (hhi : va.toNat < 2 ^ 32) : leaf s.mem s.root va =
    alignDown va ||| (PTE_BIT_PRESENT ||| PTE_BIT_READ_WRITE ||| PTE_BIT_EXECUTE_DISABLE) := by
  have hlow : Low va := by rw [Low]; omega
  obtain ⟨op, hop, hvpn⟩ := exists_identity hlo hhi
  refine hB.leaf_of_agree (h.mem_of_kernel hB (Or.inr hop)) hvpn fun op' hop' hv => ?_
  rcases h.ops_cases hB hop' with ⟨sp, hsp, hop'⟩ | hop' | hop'
  · exact absurd hv.symm (vpn_ne_of_low_of_high hlow (h.opHigh hsp hop'))
  · exact absurd hv.symm (vpn_ne_of_low_of_high hlow (h.sectionHigh (h.mem_kernelOps hop').2.1))
  · exact identity_entry hop' hlow hv

theorem leaf_low (hlow : Low va) (hout : va.toNat < 0x1000 ∨ 2 ^ 32 ≤ va.toNat) : leaf s.mem s.root va = 0 := by
  refine hB.leaf_of_no_call fun op hop hv => ?_
  rcases h.ops_cases hB hop with ⟨sp, hsp, hop⟩ | hop | hop
  · exact vpn_ne_of_low_of_high hlow (h.opHigh hsp hop) hv.symm
  · exact vpn_ne_of_low_of_high hlow (h.sectionHigh (h.mem_kernelOps hop).2.1) hv.symm
  · obtain ⟨-, hlo, hhi, -⟩ := mem_identityOps.mp hop
    rw [vpn_of_low hlow, vpn_of_low (low_of_identity hop)] at hv
    omega

theorem leaf_kernel {start stop flags : Word} (hsub : ∀ op ∈ sectionOps k start stop flags, op ∈ kernelOps k b.sections)
    (hva : InSection start stop va) :
    leaf s.mem s.root va = (alignDown va - k.virtualBase + k.physicalBase) ||| flags := by
  have hdown := alignDown_toNat (x := va)
  have hstart := alignDown_toNat (x := start)
  have hstop := alignUp_mod (x := stop)
  have hop : (⟨alignDown va, alignDown va - k.virtualBase + k.physicalBase, flags⟩ : MapOp) ∈
      sectionOps k start stop flags := by
    obtain ⟨hlo, hhi⟩ := hva
    exact mem_sectionOps.mpr ⟨by simp only; omega, ⟨by simp only; omega, by simp only; omega⟩, rfl, rfl⟩
  obtain ⟨-, hlo, hhi⟩ := h.mem_kernelOps (hsub _ hop)
  have hhigh := h.sectionHigh hlo
  have hhighva : High va := by
    rw [High] at hhigh ⊢
    simp only at hhigh
    omega
  refine hB.leaf_of_agree (h.mem_of_kernel hB (Or.inl (hsub _ hop)))
    ((vpn_eq_iff_of_high hhigh hhighva).mpr (by simp only; omega)) fun op' hop' hv => ?_
  rcases h.ops_cases hB hop' with ⟨sp, hsp, hop'⟩ | hop' | hop'
  · rw [vpn_eq_iff_of_high (h.opHigh hsp hop') hhighva] at hv
    exact absurd (show op'.va.toNat / 4096 = (alignDown va).toNat / 4096 by omega)
      (h.span_not_kernel hsp hop' hlo hhi)
  · obtain ⟨hmod', hlo', -⟩ := h.mem_kernelOps hop'
    rw [vpn_eq_iff_of_high (h.sectionHigh hlo') hhighva] at hv
    exact h.kernel_agree hop' (hsub _ hop) (BitVec.eq_of_toNat_eq (by simp only; omega))
  · exact absurd hv (vpn_ne_of_low_of_high (low_of_identity hop') hhighva)

/-- A page of owned memory has one entry at its HHDM address, whichever spans it belongs to. -/
theorem leaf_direct {e : MemmapEntry} (hE : EntriesOk M) (he : e ∈ M) (ho : e.Owned) (ha : e.Holds a) :
    leaf s.mem s.root (BitVec.ofNat 64 (b.hhdm.toNat + a)) =
      alignDown (BitVec.ofNat 64 a) ||| (PTE_BIT_PRESENT ||| PTE_BIT_READ_WRITE) := by
  obtain ⟨hmod, hlmod⟩ := hE.aligned e he ho
  have hoff := h.aligned
  have hsp : ⟨e.base, e.length, PTE_BIT_PRESENT ||| PTE_BIT_READ_WRITE⟩ ∈ spans s :=
    mem_spans.mpr (Or.inr (Or.inl ⟨e, hB.memmap ▸ he, entrySpan_of_owned ho⟩))
  obtain ⟨hlo, hhi⟩ := ha
  have hbelow := hE.below e he
  have hva := h.directVa hsp (a := a) ⟨hlo, hhi⟩
  have hhigh := h.directHigh hsp (a := a) ⟨hlo, hhi⟩
  have hpage : (alignDown (BitVec.ofNat 64 a)).toNat = a / 4096 * 4096 := by
    rw [alignDown_toNat, BitVec.toNat_ofNat]
    omega
  have hop := Span.ops_mem ⟨e.base, e.length, PTE_BIT_PRESENT ||| PTE_BIT_READ_WRITE⟩ b.hhdm
    (i := (a - e.base.toNat) / 4096) (by simp only; omega)
  have hopva : (e.base + BitVec.ofNat 64 (4096 * ((a - e.base.toNat) / 4096)) + b.hhdm).toNat =
      b.hhdm.toNat + a / 4096 * 4096 := by
    have hwin := (h.window _ hsp a ⟨hlo, hhi⟩).1
    rw [BitVec.toNat_add, BitVec.toNat_add, BitVec.toNat_ofNat]
    omega
  refine hB.leaf_of_agree (h.mem_of_span hB hsp hop)
    ((vpn_eq_iff_of_high (h.opHigh hsp hop) hhigh).mpr (by rw [hopva, hva]; omega)) fun op' hop' hv => ?_
  rcases h.ops_cases hB hop' with ⟨sp, hsp', hop'⟩ | hop' | hop'
  · obtain ⟨i, hi, -, hva', hpa', hfl'⟩ := h.mem_ops hsp' hop'
    rw [vpn_eq_iff_of_high (h.opHigh hsp' hop') hhigh, hva', hva] at hv
    have hsame : (sp.base.toNat + 4096 * i) / 4096 = a / 4096 := by omega
    have hspan := hB.span_of_owned hE he ho hsp' hi ⟨by omega, by omega⟩
    have hpa : op'.pa = alignDown (BitVec.ofNat 64 a) := BitVec.eq_of_toNat_eq (by rw [hpa', hpage]; omega)
    rw [hpa, hfl', hspan.2]
  · obtain ⟨-, hlo', hhi'⟩ := h.mem_kernelOps hop'
    rw [vpn_eq_iff_of_high (h.sectionHigh hlo') hhigh] at hv
    have hmod1 := alignUp_mod (x := b.sections.dataEnd)
    refine absurd ?_ (h.span_not_kernel hsp hop hlo' hhi')
    simp only [hopva]
    omega
  · exact absurd hv (vpn_ne_of_low_of_high (low_of_identity hop') hhigh)

end HhdmLayout

/-! ### The whole map -/

section
variable {b : Boot} {d : Devices} {M : List MemmapEntry} {k : KernelAddress} {s₀ s : State} {mem : Memory}

theorem Booted.walk_of_leaf (hB : Booted b M k s₀ s) {va pa flags : Word} (hleaf : leaf s.mem s.root va = pa ||| flags)
    (hpa : pa.toNat < 2 ^ 52) (hal : pa.toNat % 4096 = 0) (hflags : flags &&& addrMask = 0)
    (hpresent : present flags = true) : walk s.mem s.cr3.toNat va = some (pageWith pa flags) := by
  rw [hB.cr3]
  exact Neobird64.walk_of_leaf hB.wf hleaf hpa hal hflags hpresent

theorem HhdmLayout.walk_section (h : HhdmLayout b s) (hB : Booted b M k s₀ s) (hK : KernelOk k b.sections)
    {start stop flags va : Word} (hsub : ∀ op ∈ sectionOps k start stop flags, op ∈ kernelOps k b.sections)
    (hva : InSection start stop va) (hflags : flags &&& addrMask = 0) (hpresent : present flags = true) :
    walk s.mem s.cr3.toNat va = some (pageWith (alignDown va - k.virtualBase + k.physicalBase) flags) := by
  have hdown := alignDown_toNat (x := va)
  have hp := hK.physicalBase
  have hv := hK.virtualBase
  have hstart := alignDown_toNat (x := start)
  have hstop := alignUp_mod (x := stop)
  have hop : (⟨alignDown va, alignDown va - k.virtualBase + k.physicalBase, flags⟩ : MapOp) ∈
      sectionOps k start stop flags := by
    obtain ⟨hlo, hhi⟩ := hva
    exact mem_sectionOps.mpr ⟨by simp only; omega, ⟨by simp only; omega, by simp only; omega⟩, rfl, rfl⟩
  obtain ⟨-, hlo, hhi⟩ := h.mem_kernelOps (hsub _ hop)
  refine hB.walk_of_leaf (h.leaf_kernel hB hsub hva) (hK.phys _ ⟨hlo, hhi⟩) ?_ hflags hpresent
  rw [BitVec.toNat_add, BitVec.toNat_sub]
  omega

theorem HhdmLayout.walk_identity (h : HhdmLayout b s) (hB : Booted b M k s₀ s) {va : Word} (hlo : 0x1000 ≤ va.toNat)
    (hhi : va.toNat < 2 ^ 32) : walk s.mem s.cr3.toNat va =
      some (pageWith (alignDown va) (PTE_BIT_PRESENT ||| PTE_BIT_READ_WRITE ||| PTE_BIT_EXECUTE_DISABLE)) := by
  have hdown := alignDown_toNat (x := va)
  exact hB.walk_of_leaf (h.leaf_identity hB hlo hhi) (by omega) (by omega) (by decide) (by decide)

theorem HhdmLayout.walk_text (h : HhdmLayout b s) (hB : Booted b M k s₀ s) (hK : KernelOk k b.sections) {va : Word}
    (hva : InSection b.sections.textStart b.sections.textEnd va) : walk s.mem s.cr3.toNat va =
      some (pageWith (alignDown va - k.virtualBase + k.physicalBase) PTE_BIT_PRESENT) :=
  h.walk_section hB hK (fun _ hop => List.mem_append_left _ hop) hva (by decide) (by decide)

theorem HhdmLayout.walk_rodata (h : HhdmLayout b s) (hB : Booted b M k s₀ s) (hK : KernelOk k b.sections) {va : Word}
    (hva : InSection b.sections.rodataStart b.sections.rodataEnd va) : walk s.mem s.cr3.toNat va =
      some (pageWith (alignDown va - k.virtualBase + k.physicalBase) (PTE_BIT_PRESENT ||| PTE_BIT_EXECUTE_DISABLE)) :=
  h.walk_section hB hK (fun _ hop => List.mem_append_right _ (List.mem_append_left _ hop)) hva (by decide) (by decide)

theorem HhdmLayout.walk_data (h : HhdmLayout b s) (hB : Booted b M k s₀ s) (hK : KernelOk k b.sections) {va : Word}
    (hva : InSection b.sections.dataStart b.sections.dataEnd va) : walk s.mem s.cr3.toNat va =
      some (pageWith (alignDown va - k.virtualBase + k.physicalBase)
        (PTE_BIT_PRESENT ||| PTE_BIT_READ_WRITE ||| PTE_BIT_EXECUTE_DISABLE)) :=
  h.walk_section hB hK (fun _ hop => List.mem_append_right _ (List.mem_append_right _ hop)) hva (by decide) (by decide)

/-- A page of the higher half in no section and no window is not mapped. -/
theorem HhdmLayout.walk_outside (h : HhdmLayout b s) (hB : Booted b M k s₀ s) {va : Word} (hhi : High va)
    (ht : ¬InSection b.sections.textStart b.sections.textEnd va)
    (hr : ¬InSection b.sections.rodataStart b.sections.rodataEnd va)
    (hd : ¬InSection b.sections.dataStart b.sections.dataEnd va)
    (hspan : ∀ sp ∈ spans s, ∀ a, sp.Holds a → va.toNat / 4096 ≠ (b.hhdm.toNat + a) / 4096) :
    walk s.mem s.cr3.toNat va = none := by
  refine hB.walk_of_leaf_zero (hB.leaf_of_no_call fun op hop hv => ?_)
  rcases h.ops_cases hB hop with ⟨sp, hsp, hop⟩ | hop | hop
  · obtain ⟨i, hi, -, hva, -⟩ := h.mem_ops hsp hop
    rw [vpn_eq_iff_of_high (h.opHigh hsp hop) hhi] at hv
    exact hspan sp hsp _ hi (by omega)
  · rw [vpn_eq_iff_of_high (h.sectionHigh (h.mem_kernelOps hop).2.1) hhi] at hv
    rw [kernelOps, List.mem_append, List.mem_append] at hop
    have page : ∀ {start stop fl : Word}, op ∈ sectionOps k start stop fl → InSection start stop va := by
      intro start stop fl hop
      obtain ⟨hmod, ⟨hlo, hhi⟩, -⟩ := mem_sectionOps.mp hop
      have hstop := alignUp_mod (x := stop)
      exact ⟨by omega, by omega⟩
    rcases hop with hop | hop | hop
    exacts [ht (page hop), hr (page hop), hd (page hop)]
  · exact vpn_ne_of_low_of_high (low_of_identity hop) hhi hv

/-- The address space that is loaded at the end of `vmm_init`. -/
theorem startMemory_initMap (hb : b.memmap = some M) (hk : b.kernelAddress = some k) (hE : EntriesOk M)
    (hK : KernelOk k b.sections) (h : HhdmLayout b s) (hs : startMemory b d mem = .ok s) : InitMap b k s := by
  have hM := hE.usableOk
  have hmem := startMemory_memmap hM hb hs
  obtain ⟨s₀, -, hB⟩ := startMemory_booted hM hb hk (hmem ▸ h.lengthsOk) hs
  refine ⟨fun va hlo hhi => h.walk_identity hB hlo hhi, fun va hva => h.walk_text hB hK hva,
    fun va hva => h.walk_rodata hB hK hva, fun va hva => h.walk_data hB hK hva, fun e he ho a ha => ?_,
    fun va hva => ?_, fun va hhalf hlow ht hr hd hspan => ?_⟩
  · rw [hmem] at he
    have hbelow := hE.below e he
    have hpage : (alignDown (BitVec.ofNat 64 a)).toNat = a / 4096 * 4096 := by
      rw [alignDown_toNat, BitVec.toNat_ofNat]
      have := ha.2
      omega
    have := ha.2
    exact hB.walk_of_leaf (h.leaf_direct hB hE he ho ha) (by omega) (by omega) (by decide) (by decide)
  · exact hB.walk_of_leaf_zero (h.leaf_low hB (by rw [Low]; omega) (Or.inl hva))
  · rcases hhalf with hlo | hhi
    · exact hB.walk_of_leaf_zero (h.leaf_low hB hlo (by omega))
    · exact h.walk_outside hB hhi ht hr hd hspan

end

/-! ### Before and after `vmm_init` -/

section
variable {b : Boot} {d : Devices} {M : List MemmapEntry} {k : KernelAddress} {s₀ s₁ s s' : State} {mem : Memory}

theorem spans_congr (hmap : s'.memmap = s.memmap) (haddr : s'.pmmUsableAddr = s.pmmUsableAddr)
    (hcount : s'.pmmBlockCount = s.pmmBlockCount) (hlapic : s'.lapicAddr = s.lapicAddr) : spans s' = spans s := by
  rw [spans, spans, bitmapSpan, bitmapSpan, lapicSpan, lapicSpan, hmap, haddr, hcount, hlapic]

theorem HhdmLayout.congr (h : HhdmLayout b s) (hs : spans s' = spans s) : HhdmLayout b s' :=
  ⟨h.aligned, h.high, h.sections, by rw [hs]; exact h.window⟩

theorem vmmInit_kernelAddress (h : vmmInit b s = .ok s') : ∃ k, b.kernelAddress = some k := by
  cases hk : b.kernelAddress with
  | some k => exact ⟨k, rfl⟩
  | none =>
    simp only [vmmInit, hk] at h
    split at h <;> cases h

theorem startMemory_of_parts (hinit : pmmInit b (entryState mem) = .ok s₀) (hacpi : initAcpi b d s₀ = .ok s₁)
    (hvmm : vmmInit b s₁ = .ok s) : startMemory b d mem = .ok s := by
  rw [startMemory, hinit, Loop.ok_bind, hacpi, Loop.ok_bind, hvmm]

/-- `vmm_init` keeps what its windows are computed from. -/
theorem startMemory_parts (hM : UsableOk M) (hb : b.memmap = some M) (hinit : pmmInit b (entryState mem) = .ok s₀)
    (hacpi : initAcpi b d s₀ = .ok s₁) (h : HhdmLayout b s₁) (hvmm : vmmInit b s₁ = .ok s) :
    ∃ k, Booted b M k s₀ s ∧ spans s = spans s₁ ∧ s.madt = s₁.madt ∧ s.fadt = s₁.fadt := by
  obtain ⟨k, hk⟩ := vmmInit_kernelAddress hvmm
  have ready := pmmInit_ready hM hb hinit
  have hglobals := initAcpi_globals hacpi
  have hmap : s₁.memmap = M := by rw [hglobals, ready.memmap]
  have haddr : s₁.pmmUsableAddr = usableAddr M := by rw [hglobals, ready.addr]
  have hcount : s₁.pmmBlockCount.toNat = blockCount M := by rw [hglobals, ready.count]
  obtain ⟨s₀', hinit', hB⟩ := startMemory_booted hM hb hk (hmap ▸ h.lengthsOk) (startMemory_of_parts hinit hacpi hvmm)
  rw [hinit] at hinit'
  rw [← Except.ok.inj hinit'] at hB
  obtain ⟨t', htables', hmadt, hfadt, hlapic⟩ := hB.acpi
  obtain ⟨t, htables, rfl⟩ := initAcpi_tables hacpi
  obtain rfl : t = t' := Except.ok.inj (htables.symm.trans htables')
  exact ⟨k, hB, spans_congr (hB.memmap.trans hmap.symm) (hB.addr.trans haddr.symm)
    (BitVec.eq_of_toNat_eq (hB.count.trans hcount.symm)) hlapic, hmadt, hfadt⟩

end

/-! ### On a machine with 64 MiB -/

/-- What `vmm_init` maps at HHDM addresses when the memory map is `acpiMap`. -/
def acpiSpans : List Span :=
  let flags := PTE_BIT_PRESENT ||| PTE_BIT_READ_WRITE
  [⟨0x100000, 2048, flags⟩, ⟨0x100000, 0x4000000, flags⟩, ⟨0x4100800, 0x1000, flags⟩, ⟨0x100000000, 0x1000, flags⟩,
    ⟨0xfee00000, 0x1000, flags⟩]

/-- What `vmm_init` maps at HHDM addresses when the memory map is `lowMap`. -/
def lowSpans : List Span :=
  let flags := PTE_BIT_PRESENT ||| PTE_BIT_READ_WRITE
  [⟨0x100000, 2048, flags⟩, ⟨0x100000, 0x4000000, flags⟩, ⟨0x4100000, 0x2000, flags⟩, ⟨0xfee00000, 0x1000, flags⟩]

/-- On the machine with the memory map `M`, `vmm_init` maps `sps` at HHDM addresses. -/
structure SampleWindows (M : List MemmapEntry) (sps : List Span) : Prop where
  like : LikeSample M
  windows : ∀ s : State, s.memmap = M → s.pmmUsableAddr = 0x100000 → s.pmmBlockCount = 16384 →
    s.lapicAddr = 0xfee00000 → spans s = sps
  below : ∀ sp ∈ sps, sp.base.toNat + sp.length.toNat ≤ 2 ^ 32 + 4096

theorem acpiMap_windows : SampleWindows acpiMap acpiSpans where
  like := acpiMap_like
  windows s hmap haddr hcount hlapic := by
    rw [spans, bitmapSpan, lapicSpan, hmap, haddr, hcount, hlapic]
    rfl
  below := by decide

theorem lowMap_windows : SampleWindows lowMap lowSpans where
  like := lowMap_like
  windows s hmap haddr hcount hlapic := by
    rw [spans, bitmapSpan, lapicSpan, hmap, haddr, hcount, hlapic]
    rfl
  below := by decide

section
variable {M : List MemmapEntry} {m : Word} {sps : List Span} {s s₀ s₁ : State}

theorem hhdm_sample : (sampleBoot M).hhdm.toNat = 2 ^ 64 - 2 ^ 47 := rfl

theorem textStart_sample : (alignDown (sampleBoot M).sections.textStart).toNat = 2 ^ 64 - 2 ^ 31 := by
  simp only [sampleBoot]
  decide

theorem dataEnd_sample : (alignUp (sampleBoot M).sections.dataEnd).toNat = 2 ^ 64 - 2 ^ 31 + 0x8000 := by
  simp only [sampleBoot]
  decide

theorem sectionsOk_sample : SectionsOk (sampleBoot M).sections := by
  constructor <;> simp only [sampleBoot] <;> decide

theorem SampleWindows.layout (hw : SampleWindows M sps) (h : spans s = sps) : HhdmLayout (sampleBoot M) s where
  aligned := by
    rw [hhdm_sample]
    decide
  high := by rw [High, hhdm_sample]
  sections := sectionsOk_sample
  window sp hsp a ha := by
    rw [h] at hsp
    have hlt := hw.below sp hsp
    have ha' := ha.2
    rw [hhdm_sample, textStart_sample]
    omega

/-- The states of the sequence of `_start` on the machine with the memory map `M` and the MADT at `m`. -/
structure SampleStart (M : List MemmapEntry) (m : Word) (sps : List Span) (s₀ s₁ s : State) : Prop where
  windowsOk : SampleWindows M sps
  madtOk : SampleMadt m
  init : pmmInit (sampleBoot M) (entryState (acpiMemoryAt m)) = .ok s₀
  acpi : initAcpi (sampleBoot M) acpiDevices s₀ = .ok s₁
  vmm : vmmInit (sampleBoot M) s₁ = .ok s
  windows : spans s₁ = sps
  madtAddr : s₁.madt = m
  fadtAddr : s₁.fadt = 0x4100900
  mem : ∀ a, a < 0x100000 ∨ 0x101000 ≤ a → s₀.mem a = acpiMemoryAt m a
  blocks : 4 ≤ s.clear.card

/-- On the machine whose MADT is at 4 GiB. -/
abbrev AcpiStart := SampleStart acpiMap 0x100000000 acpiSpans

namespace SampleStart
variable (h : SampleStart M m sps s₀ s₁ s)
include h

theorem start : startMemory (sampleBoot M) acpiDevices (acpiMemoryAt m) = .ok s := startMemory_of_parts h.init h.acpi h.vmm

theorem layout : HhdmLayout (sampleBoot M) s₁ := h.windowsOk.layout h.windows

theorem booted : ∃ k, Booted (sampleBoot M) M k s₀ s ∧ spans s = sps ∧ s.madt = s₁.madt := by
  obtain ⟨k, hB, hspans, hmadt, -⟩ := startMemory_parts h.windowsOk.like.ok rfl h.init h.acpi h.layout h.vmm
  exact ⟨k, hB, hspans.trans h.windows, hmadt⟩

theorem hhdmOk : HhdmOk s := by
  obtain ⟨k, hB, -⟩ := h.booted
  rw [HhdmOk, hB.hhdm, hhdm_sample]
  decide

theorem mem_acpi : ∀ a, a < 0x100000 ∨ 0x101000 ≤ a → s₁.mem a = acpiMemoryAt m a := by
  rw [initAcpi_globals h.acpi]
  exact h.mem

end SampleStart

theorem startMemory_sample (hw : SampleWindows M sps) (hm : SampleMadt m) : ∃ s₀ s₁ s, SampleStart M m sps s₀ s₁ s := by
  have like := hw.like
  obtain ⟨s₀, hinit⟩ := pmmInit_ok (b := sampleBoot M) like.ok rfl (acpiMemoryAt m)
  have ready := pmmInit_ready like.ok rfl hinit
  have hap := ready.apart like.ok
  have hclear := like.clear ready
  have hmem := fun a => like.mem_pmmInit (a := a) hinit
  have hoff : s₀.hhdmoffset = 0 := (pmmInit_onlyMem rfl hinit).hhdmoffset
  have hacpi := initAcpi_sample (M := M) hmem hm hoff
  obtain ⟨s₁, hs₁⟩ : ∃ s₁ : State, s₁ = { s₀ with
    rsdt := 0, xsdt := 0x4100800, madt := m, fadt := 0x4100900, lapicAddr := 0xfee00000 } := ⟨_, rfl⟩
  rw [← hs₁] at hacpi
  have hspans : spans s₁ = sps := by
    rw [hs₁]
    exact hw.windows _ ready.memmap (ready.addr.trans like.addr) (BitVec.eq_of_toNat_eq (ready.count.trans like.count)) rfl
  have hspans' : spans { s₁ with hhdmoffset := (sampleBoot M).hhdm } = sps := hspans
  have L := hw.layout hspans'
  have hclear₁ : s₁.clear = Finset.Ico 2304 16384 := by
    rw [hs₁]
    exact hclear
  have hoff' := hhdm_sample (M := M)
  have htext := textStart_sample (M := M)
  have hdata := dataEnd_sample (M := M)
  -- The regions of the low 4 GiB, of its window with one page more, and of the kernel.
  obtain ⟨window, hwindow⟩ : ∃ window, window = Finset.Ico (2 ^ 43 - 2 ^ 26) (2 ^ 43 - 2 ^ 26 + 2049) := ⟨_, rfl⟩
  have hregions : ∀ op ∈ initOps ⟨0x8000000, 0xffffffff80000000⟩ (sampleBoot M).sections
      { s₁ with hhdmoffset := (sampleBoot M).hhdm },
      op.va.toNat / 2 ^ 21 ∈ Finset.range 2048 ∪ (window ∪ {2 ^ 43 - 2 ^ 10}) := by
    intro op hop
    rw [Finset.mem_union, Finset.mem_union, hwindow, Finset.mem_range, Finset.mem_Ico, Finset.mem_singleton]
    rcases (mem_initOps (b := sampleBoot M) L.aligned).mp hop with ⟨sp, hsp, hop⟩ | hop | hop
    · obtain ⟨i, hi, -, hva, -⟩ := L.mem_ops hsp hop
      rw [hspans'] at hsp
      have hlt := hw.below sp hsp
      have hi' := hi.2
      rw [hva, hoff']
      omega
    · obtain ⟨-, hlo, hhi⟩ := L.mem_kernelOps hop
      omega
    · obtain ⟨-, -, hlt, -⟩ := mem_identityOps.mp hop
      omega
  have hcard : 3 * (Finset.range 2048 ∪ (window ∪ {2 ^ 43 - 2 ^ 10})).card + 5 ≤ s₁.clear.card := by
    have h1 := Finset.card_union_le (Finset.range 2048) (window ∪ {2 ^ 43 - 2 ^ 10})
    have h2 := Finset.card_union_le window {2 ^ 43 - 2 ^ 10}
    have h3 : window.card = 2049 := by
      rw [hwindow, Nat.card_Ico]
      omega
    rw [Finset.card_range] at h1
    rw [Finset.card_singleton] at h2
    rw [hclear₁, Nat.card_Ico]
    omega
  obtain ⟨s, hs, hdrop⟩ := vmmInit_ok (b := sampleBoot M) (s := s₁) (by rw [hs₁]; exact ⟨hap.clearApart, hap.count⟩)
    (by rw [hclear₁]; simp) rfl L.lengthsOk ⟨by rw [hoff']; omega, by rw [hoff']; omega⟩ hregions (by omega)
  exact ⟨s₀, s₁, s, hw, hm, hinit, hacpi, hs, hspans, by rw [hs₁], by rw [hs₁], hmem, by omega⟩

theorem startMemory_acpiMap : ∃ s₀ s₁ s, AcpiStart s₀ s₁ s := startMemory_sample acpiMap_windows (Or.inl rfl)

theorem startMemory_lowMap : ∃ s₀ s₁ s, SampleStart lowMap 0x4101000 lowSpans s₀ s₁ s :=
  startMemory_sample lowMap_windows (Or.inr rfl)

end

theorem entriesOk_acpiMap : EntriesOk acpiMap where
  aligned := by
    intro e he ho
    rw [acpiMap, sampleMap, List.singleton_append, List.mem_cons, List.mem_cons, List.mem_singleton] at he
    rcases he with rfl | rfl | rfl
    · decide
    · exact absurd ho (by simp [MemmapEntry.Owned])
    · exact absurd ho (by simp [MemmapEntry.Owned])
  below := by decide
  disjoint := by
    have h1 : (0x100000 : Word).toNat = 0x100000 := rfl
    have h2 : (0x4000000 : Word).toNat = 0x4000000 := rfl
    have h3 : (0x4100800 : Word).toNat = 0x4100800 := rfl
    have h4 : (0x100000000 : Word).toNat = 0x100000000 := rfl
    simp only [acpiMap, sampleMap, List.singleton_append, List.pairwise_cons, List.mem_cons, List.not_mem_nil, or_false,
      forall_eq_or_imp, forall_eq, IsEmpty.forall_iff, implies_true, MemmapEntry.Holds, h1, h2, h3, h4]
    refine ⟨⟨fun _ a => by omega, fun _ a => by omega⟩, ?_, trivial, List.Pairwise.nil⟩
    rintro (h | h) <;> rcases h with h | h <;> cases h

theorem kernelOk_sample : KernelOk ⟨0x8000000, 0xffffffff80000000⟩ (sampleBoot acpiMap).sections where
  physicalBase := by decide
  virtualBase := by decide
  phys va hva := by
    have hlo : (alignDown (sampleBoot acpiMap).sections.textStart).toNat = 2 ^ 64 - 2 ^ 31 := by decide
    have hhi : (alignUp (sampleBoot acpiMap).sections.dataEnd).toNat = 2 ^ 64 - 2 ^ 31 + 0x8000 := by decide
    have hv : (0xffffffff80000000 : Word).toNat = 2 ^ 64 - 2 ^ 31 := rfl
    have hp : (0x8000000 : Word).toNat = 0x8000000 := rfl
    rw [InSection, hlo, hhi] at hva
    rw [BitVec.toNat_add, BitVec.toNat_sub, hv, hp]
    omega

/-- The address space of this machine. -/
theorem startMemory_initMap_sample : ∃ k s, (sampleBoot acpiMap).kernelAddress = some k ∧
    startMemory (sampleBoot acpiMap) acpiDevices acpiMemory = .ok s ∧ InitMap (sampleBoot acpiMap) k s := by
  obtain ⟨s₀, s₁, s, h⟩ := startMemory_acpiMap
  obtain ⟨-, -, hspans, -⟩ := h.booted
  exact ⟨_, s, rfl, h.start,
    startMemory_initMap rfl rfl entriesOk_acpiMap kernelOk_sample (acpiMap_windows.layout hspans) h.start⟩

end Neobird64
