import Neobird64.Theorems.DirectMap

/-! Who can write to the kernel's text and rodata. Their own addresses are mapped read-only, but a frame of
    them below 4 GiB is also in the identity map, and one in a page that `vmm_init` maps through the HHDM is
    also there, both with write access. -/

namespace Neobird64
open State Paging PathTree

/-- The physical page `P` holds a part of the kernel's text or rodata. -/
def HoldsReadOnly (b : Boot) (k : KernelAddress) (P : Nat) : Prop :=
  ∃ va, (InSection b.sections.textStart b.sections.textEnd va ∨ InSection b.sections.rodataStart b.sections.rodataEnd va) ∧
    (va - k.virtualBase + k.physicalBase).toNat / 4096 = P

/-- A write to `va` goes to the physical page `P`. -/
def WritesTo (s : State) (va : Word) (P : Nat) : Prop :=
  (Low va ∨ High va) ∧ ∃ tr, walk s.mem s.cr3.toNat va = some tr ∧ tr.writable = true ∧ tr.page = P * 4096

section
variable {s : State} {b : Boot} {d : Devices} {M : List MemmapEntry} {k : KernelAddress} {s₀ : State} {sp sp₀ : Span}
variable {va va' : Word} {a P : Nat} {mem : Memory}

/-! ### The sections -/

/-- No page of the data section has the frame of a page of text or rodata. -/
theorem KernelOk.page_ne (hK : KernelOk k b.sections) (hs : SectionsOk b.sections)
    (hva : InSection b.sections.dataStart b.sections.dataEnd va)
    (hva' : InSection b.sections.textStart b.sections.textEnd va' ∨ InSection b.sections.rodataStart b.sections.rodataEnd va') :
    (va - k.virtualBase + k.physicalBase).toNat / 4096 ≠ (va' - k.virtualBase + k.physicalBase).toNat / 4096 := by
  have h1 := hs.text
  have h2 := hs.rodataGap
  have h3 := hs.rodata
  have h4 := hs.dataGap
  have h5 := hs.data
  have h6 := hs.top
  have hp := hK.physicalBase
  have hv := hK.virtualBase
  simp only [InSection, alignDown_toNat] at hva hva'
  rw [alignUp_toNat (by omega)] at hva
  rw [alignUp_toNat (by omega), alignUp_toNat (by omega)] at hva'
  have hsub : ∀ x : Word, InSection b.sections.textStart b.sections.dataEnd x → (x - k.virtualBase + k.physicalBase).toNat < 2 ^ 52 :=
    hK.phys
  simp only [InSection, alignDown_toNat] at hsub
  rw [alignUp_toNat (by omega)] at hsub
  have hx := hsub va ⟨by omega, by omega⟩
  have hx' := hsub va' ⟨by omega, by omega⟩
  rw [BitVec.toNat_add, BitVec.toNat_sub] at hx hx' ⊢
  rw [BitVec.toNat_add, BitVec.toNat_sub]
  omega

/-! ### The HHDM -/

theorem Booted.walk_congr_vpn (hB : Booted b M k s₀ s) (hv : vpn va = vpn va') :
    walk s.mem s.cr3.toNat va = walk s.mem s.cr3.toNat va' := by
  rw [hB.cr3, hB.wf.tree.walk, hB.wf.tree.walk, leaf_congr_vpn hv]

theorem Span.holds_of_visits (h : sp.visits P = true) : ∃ a, sp.Holds a ∧ a / 4096 = P := by
  simp only [Span.visits, decide_eq_true_eq] at h
  exact ⟨sp.base.toNat + 4096 * (P - sp.base.toNat / 4096), ⟨by omega, by omega⟩, by omega⟩

namespace HhdmLayout
variable (h : HhdmLayout b s) (hB : Booted b M k s₀ s)
include h

theorem vpn_direct (hsp : sp ∈ spans s) (ha : sp.Holds a) (hhigh : High va) :
    vpn va = vpn (BitVec.ofNat 64 (b.hhdm.toNat + a)) ↔ va.toNat / 4096 = b.hhdm.toNat / 4096 + a / 4096 := by
  have hal := h.aligned
  rw [vpn_eq_iff_of_high hhigh (h.directHigh hsp ha), h.directVa hsp ha]
  omega

include hB

theorem walk_of_visits (hsp : sp ∈ spans s) (hv : sp.visits P = true) (hhigh : High va)
    (hva : va.toNat / 4096 = b.hhdm.toNat / 4096 + P) :
    ∃ tr, walk s.mem s.cr3.toNat va = some tr ∧ tr.writable = true ∧ tr.page = P * 4096 := by
  obtain ⟨a, ha, rfl⟩ := Span.holds_of_visits hv
  have hal := h.aligned
  obtain ⟨sp', hlast⟩ : ∃ sp', lastSpan s (a / 4096) = some sp' := by
    rw [← Option.isSome_iff_exists, lastSpan, List.find?_isSome]
    exact ⟨sp, List.mem_reverse.mpr hsp, hv⟩
  have hreached : Reached b s (BitVec.allOnes 64) a := by
    have hzero : ~~~(BitVec.allOnes 64) = 0#64 := by decide
    have hextra : sp'.extra &&& ~~~(BitVec.allOnes 64) = 0 := by
      rw [hzero]
      exact BitVec.and_zero
    exact (h.reached_iff hB hsp ha).mpr ⟨sp', hlast, hextra⟩
  obtain ⟨tr, htr, hpage, hwrite, -⟩ := hreached
  rw [hB.walk_congr_vpn ((h.vpn_direct hsp ha hhigh).mpr hva)]
  exact ⟨tr, htr, hwrite, by omega⟩

theorem visits_of_walk {tr : Translation} (hsp : sp ∈ spans s) (ha : sp.Holds a) (hhigh : High va)
    (hva : va.toNat / 4096 = b.hhdm.toNat / 4096 + a / 4096) (htr : walk s.mem s.cr3.toNat va = some tr) :
    (∃ sp ∈ spans s, sp.visits (a / 4096) = true) ∧ tr.page = a / 4096 * 4096 := by
  cases hlast : lastSpan s (a / 4096) with
  | none =>
    rw [hB.walk_congr_vpn ((h.vpn_direct hsp ha hhigh).mpr hva),
      hB.walk_of_leaf_zero (h.leaf_of_no_span hB hsp ha hlast)] at htr
    cases htr
  | some sp' =>
    obtain ⟨hmem, hvisits⟩ := lastSpan_mem hlast
    obtain ⟨tr', htr', -, hpage⟩ := h.walk_of_visits hB hmem hvisits hhigh hva
    rw [htr] at htr'
    cases htr'
    exact ⟨⟨sp', hmem, hvisits⟩, hpage⟩

/-! ### All addresses -/

theorem writesTo_low (hlow : Low va) : WritesTo s va P ↔ va.toNat / 4096 = P ∧ 1 ≤ P ∧ P < 2 ^ 20 := by
  have hdown := alignDown_toNat (x := va)
  by_cases hin : 0x1000 ≤ va.toNat ∧ va.toNat < 2 ^ 32
  · have hwalk := h.walk_identity hB hin.1 hin.2
    have hwrite : writable (PTE_BIT_PRESENT ||| PTE_BIT_READ_WRITE ||| PTE_BIT_EXECUTE_DISABLE) = true := by decide
    constructor
    · rintro ⟨-, tr, htr, -, hpage⟩
      rw [hwalk] at htr
      cases htr
      simp only [pageWith] at hpage
      omega
    · rintro ⟨hva, -, -⟩
      refine ⟨Or.inl hlow, _, hwalk, hwrite, ?_⟩
      exact hdown.trans (by rw [hva])
  · have hnone : walk s.mem s.cr3.toNat va = none := hB.walk_of_leaf_zero (h.leaf_low hB hlow (by omega))
    refine iff_of_false ?_ (by omega)
    rintro ⟨-, tr, htr, -⟩
    rw [hnone] at htr
    cases htr

/-- In the higher half, a page of text or rodata is written to through the HHDM only. -/
theorem visits_of_writesTo (hK : KernelOk k b.sections) (hP : HoldsReadOnly b k P) (hhigh : High va)
    (hw : WritesTo s va P) : ∃ sp ∈ spans s, sp.visits P = true ∧ va.toNat / 4096 = b.hhdm.toNat / 4096 + P := by
  obtain ⟨-, tr, htr, hwrite, hpage⟩ := hw
  have readOnly : ∀ {pa flags : Word}, walk s.mem s.cr3.toNat va = some (pageWith pa flags) → writable flags = true := by
    intro pa flags hwalk
    rw [htr] at hwalk
    cases hwalk
    exact hwrite
  by_cases ht : InSection b.sections.textStart b.sections.textEnd va
  · exact absurd (readOnly (h.walk_text hB hK ht)) (by decide)
  by_cases hr : InSection b.sections.rodataStart b.sections.rodataEnd va
  · exact absurd (readOnly (h.walk_rodata hB hK hr)) (by decide)
  by_cases hd : InSection b.sections.dataStart b.sections.dataEnd va
  · obtain ⟨va', hva', hP⟩ := hP
    rw [h.walk_data hB hK hd] at htr
    cases htr
    have hdown := alignDown_toNat (x := va)
    have hp := hK.physicalBase
    have hv := hK.virtualBase
    refine absurd ?_ (hK.page_ne h.sections hd hva')
    simp only [pageWith, BitVec.toNat_add, BitVec.toNat_sub] at hpage hP ⊢
    omega
  -- No section has the page, so a window does.
  obtain ⟨sp, hsp, a, ha, hva⟩ : ∃ sp ∈ spans s, ∃ a, sp.Holds a ∧ va.toNat / 4096 = (b.hhdm.toNat + a) / 4096 := by
    by_contra hno
    push Not at hno
    rw [h.walk_outside hB hhigh ht hr hd hno] at htr
    cases htr
  have hal := h.aligned
  have hva' : va.toNat / 4096 = b.hhdm.toNat / 4096 + a / 4096 := by omega
  obtain ⟨⟨sp', hsp', hvisits⟩, hpage'⟩ := h.visits_of_walk hB hsp ha hhigh hva' htr
  obtain rfl : a / 4096 = P := by omega
  exact ⟨sp', hsp', hvisits, hva'⟩

end HhdmLayout

/-- Write access to a page of text or rodata is given at its own address in the low 4 GiB, and at its
    HHDM address when a loop of `vmm_init` maps it there; nowhere else. -/
theorem writesTo_readOnly_iff (hb : b.memmap = some M) (hk : b.kernelAddress = some k) (hM : UsableOk M)
    (hK : KernelOk k b.sections) (h : HhdmLayout b s) (hs : startMemory b d mem = .ok s) (hP : HoldsReadOnly b k P) :
    WritesTo s va P ↔ (va.toNat / 4096 = P ∧ 1 ≤ P ∧ P < 2 ^ 20) ∨
      ∃ sp ∈ spans s, sp.visits P = true ∧ va.toNat / 4096 = b.hhdm.toNat / 4096 + P := by
  obtain ⟨s₀, -, hB⟩ := startMemory_booted hM hb hk (startMemory_memmap hM hb hs ▸ h.lengthsOk) hs
  have hhhdm := h.high
  rw [High] at hhhdm
  constructor
  · intro hw
    rcases hw.1 with hlow | hhigh
    · exact Or.inl ((h.writesTo_low hB hlow).mp hw)
    · exact Or.inr (h.visits_of_writesTo hB hK hP hhigh hw)
  · rintro (hlow | ⟨sp, hsp, hvisits, hva⟩)
    · exact (h.writesTo_low hB (by rw [Low]; omega)).mpr hlow
    · have hhigh : High va := by
        rw [High]
        omega
      exact ⟨Or.inr hhigh, h.walk_of_visits hB hsp hvisits hhigh hva⟩

end

/-! ### On a machine with 64 MiB -/

/-- The first page of text, loaded at 128 MiB: written at this address, not at the one it is linked at. -/
theorem writesTo_readOnly_iff_sample : ∃ k s, (sampleBoot acpiMap).kernelAddress = some k ∧
    startMemory (sampleBoot acpiMap) acpiDevices acpiMemory = .ok s ∧ HoldsReadOnly (sampleBoot acpiMap) k 0x8000 ∧
    WritesTo s 0x8000000 0x8000 ∧ ¬WritesTo s 0xffffffff80000000 0x8000 := by
  obtain ⟨s₀, s₁, s, h⟩ := startMemory_acpiMap
  obtain ⟨-, -, hspans, -⟩ := h.booted
  have hP : HoldsReadOnly (sampleBoot acpiMap) ⟨0x8000000, 0xffffffff80000000⟩ 0x8000 :=
    ⟨0xffffffff80000000, Or.inl ⟨by decide, by decide⟩, by decide⟩
  have L := acpiMap_windows.layout hspans
  refine ⟨_, s, rfl, h.start, hP, (writesTo_readOnly_iff rfl rfl acpiMap_like.ok kernelOk_sample L h.start hP).mpr
    (Or.inl ⟨by decide, by decide, by decide⟩), fun hw => ?_⟩
  rcases (writesTo_readOnly_iff rfl rfl acpiMap_like.ok kernelOk_sample L h.start hP).mp hw with ⟨hpage, -⟩ | ⟨sp, -, -, hpage⟩
  · exact absurd hpage (by decide)
  · exact absurd hpage (by decide)

/-- The kernel is loaded at 128 MiB, so its text can be written at this address. -/
theorem text_writable : ∃ k s, (sampleBoot acpiMap).kernelAddress = some k ∧
    startMemory (sampleBoot acpiMap) acpiDevices acpiMemory = .ok s ∧
    ¬∀ va P, HoldsReadOnly (sampleBoot acpiMap) k P → ¬WritesTo s va P := by
  obtain ⟨s₀, s₁, s, h⟩ := startMemory_acpiMap
  obtain ⟨-, -, hspans, -⟩ := h.booted
  have hI := startMemory_initMap rfl rfl entriesOk_acpiMap kernelOk_sample (acpiMap_windows.layout hspans) h.start
  refine ⟨_, s, rfl, h.start, fun hno => ?_⟩
  have hwalk := hI.identity 0x8000000 (by decide) (by decide)
  exact hno 0x8000000 0x8000 ⟨0xffffffff80000000, Or.inl ⟨by decide, by decide⟩, by decide⟩
    ⟨Or.inl (by decide), _, hwalk, by decide, by decide⟩

end Neobird64
