import Neobird64.Theorems.AddressSpace
import Neobird64.Apic

/-! The accessors of the LAPIC. `apic_read` uses the physical address of a register as it is and
    `apic_write` adds `hhdmoffset`. Before `vmm_init` the offset is 0; after it the identity map serves the
    one, and the last call of `vmm_map_page` the other. -/

namespace Neobird64
open State Paging PathTree

/-- The identity map of the boot loader: the low 4 GiB except page 0. -/
def LoaderMap (mmu : Mmu) : Prop :=
  ∀ va, 0x1000 ≤ va.toNat → va.toNat < 2 ^ 32 →
    ∃ tr, mmu va = some tr ∧ tr.page = va.toNat / 4096 * 4096 ∧ tr.writable = true

/-- Both accessors reach the register at `lapic + reg`, the write through a writable page. -/
structure SameRegister (mmu : Mmu) (hhdmoffset : Word) (lapic : Nat) (base : Word) : Prop where
  read : ∀ regs reg, reg.toNat < 0x1000 → apicRead mmu regs base reg = some (regs (lapic + reg.toNat))
  write : ∀ regs reg data, reg.toNat < 0x1000 →
    apicWrite mmu hhdmoffset regs base reg data = some (Function.update regs (lapic + reg.toNat) data)

/-- The field `lapicaddr` of the MADT is neither in the bitmap nor in a block that may be allocated. -/
def MadtKept (s : State) : Prop :=
  ∀ a, (s.madt + offsetofLapicaddr).toNat ≤ a → a < (s.madt + offsetofLapicaddr).toNat + 4 →
    ¬s.Storage a ∧ a / 4096 ∉ s.clear

/-- What the kernel passes as `apic_base` in `s`, when `init_apic` ran in `s₁`. -/
inductive LapicBase (s₁ s : State) : Word → Prop
  /-- `init_apic_ap` passes `lapic_addr`. -/
  | lapicAddr : LapicBase s₁ s (s.lapicAddr.setWidth 64)
  /-- `init_apic` passes `madt->lapicaddr`, and sets `lapic_address` to it. -/
  | lapicAddress : LapicBase s₁ s (madtLapicaddr s₁)
  /-- `init_apic_ap` sets `lapic_address` again. -/
  | madtLapicaddr (h : MadtKept s₁) : LapicBase s₁ s (madtLapicaddr s)

section
variable {b : Boot} {d : Devices} {M : List MemmapEntry} {mem : Memory} {s s' s₀ s₁ t : State} {n a lapic : Nat} {base off va : Word}
variable {mmu : Mmu}

/-! ### The accesses to one page -/

theorem sameRegister_of_pages (hal : base.toNat % 4096 = 0) (hoff : off.toNat % 4096 = 0)
    (hr : ∀ va, va.toNat / 4096 = base.toNat / 4096 → ∃ tr, mmu va = some tr ∧ tr.page = lapic)
    (hw : ∀ va, va.toNat / 4096 = (base + off).toNat / 4096 → ∃ tr, mmu va = some tr ∧ tr.page = lapic ∧
      tr.writable = true) : SameRegister mmu off lapic base where
  read regs reg hreg := by
    have hlt := base.isLt
    have hptr : (apicReadPtr base reg).toNat = base.toNat + reg.toNat := by
      rw [apicReadPtr, BitVec.toNat_add, BitVec.toNat_setWidth]
      omega
    obtain ⟨tr, htr, hpage⟩ := hr (apicReadPtr base reg) (by omega)
    have hmod : (apicReadPtr base reg).toNat % 4096 = reg.toNat := by omega
    rw [apicRead, htr, Option.map_some, hpage, hmod]
  write regs reg data hreg := by
    have hsum := BitVec.toNat_add base off
    have hptr : (apicWritePtr off base reg).toNat = (base + off).toNat + reg.toNat := by
      rw [apicWritePtr, BitVec.add_assoc, BitVec.add_comm _ off, ← BitVec.add_assoc, BitVec.toNat_add,
        BitVec.toNat_setWidth]
      omega
    obtain ⟨tr, htr, hpage, hwrite⟩ := hw (apicWritePtr off base reg) (by omega)
    have hmod : (apicWritePtr off base reg).toNat % 4096 = reg.toNat := by omega
    rw [apicWrite, htr, Option.bind_some, if_pos hwrite, hpage, hmod]

/-- The page of the direct map is not the page of the identity map, also when their sum wraps around. -/
theorem vpn_add_ne (hhigh : High off) (hoff : off.toNat % 4096 = 0) :
    vpn (base + off) ≠ vpn base := by
  have hlt := off.isLt
  rw [High] at hhigh
  rw [vpn, vpn, BitVec.toNat_add]
  omega

theorem low_or_high_add (hlow : base.toNat < 2 ^ 32) (hhigh : High off) (hal : base.toNat % 4096 = 0)
    (hoff : off.toNat % 4096 = 0) (hva : va.toNat / 4096 = (base + off).toNat / 4096) : Low va ∨ High va := by
  have hlt := off.isLt
  rw [High] at hhigh
  rw [Low, High]
  rw [BitVec.toNat_add] at hva
  omega

/-! ### The page map of `vmm_init` -/

/-- Since the new page map was empty, only the bitmap and blocks that were free have changed. -/
theorem NewMap.changed_of_extends (h : NewMap s s₀ n) (e : Extends (n * 4096) s₀ t) (ha : t.mem a ≠ s.mem a) :
    s.Storage a ∨ a / 4096 ∈ s.clear := by
  by_cases h₀ : t.mem a = s₀.mem a
  · rw [h₀] at ha
    rcases h.changed a ha with hst | rfl
    · exact Or.inl hst
    · exact Or.inr h.block
  · rcases e.changed a h₀ with hst | ⟨p, x, hx, hlo, hhi⟩
    · exact Or.inl (h.storage.mp hst)
    · have hmod := e.wf.table_mod hx
      have hblock : a / 4096 = x / 4096 := by omega
      right
      rw [hblock]
      rcases e.new p x hx with hold | ⟨hclear, -⟩
      · obtain ⟨-, rfl⟩ := (h.tables p x).mp hold
        rw [Nat.mul_div_cancel _ (by omega)]
        exact h.block
      · rw [h.clear] at hclear
        exact Finset.mem_of_mem_erase hclear

/-- What `vmm_init` leaves for the LAPIC: the identity map and the page of the LAPIC are written over what
    was mapped before them. -/
structure LapicMapped (s₁ s : State) (off lapic : Word) : Prop where
  hhdm : s.hhdmoffset = off
  lapicAddr : s.lapicAddr = s₁.lapicAddr
  madt : s.madt = s₁.madt
  identity : ∀ va, vpn va = vpn lapic → walk s.mem s.cr3.toNat va =
    some (pageWith lapic (PTE_BIT_PRESENT ||| PTE_BIT_READ_WRITE ||| PTE_BIT_EXECUTE_DISABLE))
  direct : ∀ va, vpn va = vpn (lapic + off) → walk s.mem s.cr3.toNat va =
    some (pageWith lapic (PTE_BIT_PRESENT ||| PTE_BIT_READ_WRITE))
  changed : ∀ a, s.mem a ≠ s₁.mem a → s₁.Storage a ∨ a / 4096 ∈ s₁.clear

theorem alignDown_of_mod (h : va.toNat % 4096 = 0) : alignDown va = va := by
  apply BitVec.eq_of_toNat_eq
  rw [alignDown_toNat]
  omega

theorem vmmInit_lapic (hap : PmmApart { s₁ with hhdmoffset := b.hhdm }) (hal : b.hhdm.toNat % 4096 = 0)
    (hhigh : High b.hhdm) (hl : s₁.lapicAddr.toNat % 4096 = 0) (hl' : 0x1000 ≤ s₁.lapicAddr.toNat)
    (h : vmmInit b s₁ = .ok s) : LapicMapped s₁ s b.hhdm (s₁.lapicAddr.setWidth 64) := by
  obtain ⟨t, t₁, t₂, ⟨s₂, n, hnew, ext⟩, hidentity, hlapic, rfl⟩ := vmmInit_tail
    (fun t => ∃ s₂ n, NewMap { s₁ with hhdmoffset := b.hhdm } s₂ n ∧ Extends (n * 4096) s₂ t)
    (fun t ht => by
      obtain ⟨n, hnew⟩ := newPageMap_newMap hap ht
      exact ⟨t, n, hnew, Extends.refl hnew.wf⟩)
    (fun t va pa flags t' ⟨s₂, n, hnew, ext⟩ hmap => by
      rw [ext.only.kernelPageMap, hnew.pageMap, ← ext.only.tableVirt] at hmap
      exact ⟨s₂, n, hnew, ext.trans (vmmMapPage_extends ext.wf hmap)⟩) h
  have hlt := s₁.lapicAddr.isLt
  have hlapicNat : (s₁.lapicAddr.setWidth 64).toNat = s₁.lapicAddr.toNat := by
    rw [BitVec.toNat_setWidth]
    omega
  generalize hlapicDef : s₁.lapicAddr.setWidth 64 = lapic at hlapicNat ⊢
  have hlow : Low lapic := by rw [Low]; omega
  have halign : alignDown lapic = lapic := alignDown_of_mod (by omega)
  have haligned : alignDown (lapic + b.hhdm) = lapic + b.hhdm :=
    alignDown_of_mod (by rw [BitVec.toNat_add]; omega)
  -- The two last steps, as calls for the root at block `n`.
  rw [mapIdentity_eq, ext.only.kernelPageMap, hnew.pageMap, ← ext.only.tableVirt] at hidentity
  have ext₁ := ext.trans (mapAll_extends ext.wf hidentity)
  have hlapicAddr : t₁.lapicAddr = s₁.lapicAddr := ext₁.only.lapicAddr.trans hnew.lapicAddr
  have hoff : t₁.hhdmoffset = b.hhdm := ext₁.only.hhdmoffset.trans hnew.hhdmoffset
  simp only [mapLapic, hlapicAddr, hlapicDef, hoff, halign, haligned] at hlapic
  rw [ext₁.only.kernelPageMap, hnew.pageMap, ← ext₁.only.tableVirt] at hlapic
  have ext₂ := ext₁.trans (vmmMapPage_extends ext₁.wf hlapic)
  have hcr3 : (vmmSetCtx t₂ t₂.kernelPageMap).cr3.toNat = n * 4096 := (ext₂.only.root).trans hnew.root
  refine ⟨ext₂.only.hhdmoffset.trans hnew.hhdmoffset, ext₂.only.lapicAddr.trans hnew.lapicAddr,
    ext₂.only.madt.trans hnew.madt, fun va hv => ?_, fun va hv => ?_, fun a ha => hnew.changed_of_extends ext₂ ha⟩
  · obtain ⟨op, hop, hopv⟩ : ∃ op ∈ identityOps, vpn op.va = vpn lapic := exists_identity (by omega) (by omega)
    have hleaf := mapAll_leaf_of_agree ext.wf hidentity hop hopv fun op' hop' hv' => identity_entry hop' hlow hv'
    rw [hcr3]
    refine walk_of_leaf (s := t₂) ext₂.wf ?_ (by omega) (by omega) (by decide) (by decide)
    rw [halign] at hleaf
    refine (vmmMapPage_leaf ext₁.wf hlapic).trans ?_
    rw [if_neg (by rw [hv]; exact (vpn_add_ne hhigh hal).symm), leaf_congr_vpn hv, hleaf]
  · rw [hcr3]
    refine walk_of_leaf (s := t₂) ext₂.wf ?_ (by omega) (by omega) (by decide) (by decide)
    refine (vmmMapPage_leaf ext₁.wf hlapic).trans ?_
    rw [if_pos hv]

/-! ### Before and after `vmm_init` -/

theorem pmmInit_hhdmoffset (hb : b.memmap = some M) (hinit : pmmInit b (entryState mem) = .ok s₀) : s₀.hhdmoffset = 0 :=
  (pmmInit_onlyMem hb hinit).hhdmoffset

/-- Every base that the kernel passes is the address of the LAPIC. -/
theorem lapicBase_eq (hbase : LapicBase s₁ s base) (hmadt : madtLapicaddr s₁ = s₁.lapicAddr.setWidth 64)
    (hlapic : s.lapicAddr = s₁.lapicAddr) (hptr : s.madt = s₁.madt)
    (hchanged : ∀ a, s.mem a ≠ s₁.mem a → s₁.Storage a ∨ a / 4096 ∈ s₁.clear) : base = s₁.lapicAddr.setWidth 64 := by
  cases hbase with
  | lapicAddr => rw [hlapic]
  | lapicAddress => exact hmadt
  | madtLapicaddr hkept =>
    have hread : s.load32 .identity (s.madt + offsetofLapicaddr) = s₁.load32 .identity (s₁.madt + offsetofLapicaddr) := by
      rw [load32, load32, phys, phys, hptr]
      refine Memory.read32_congr fun a hlo hhi => ?_
      obtain ⟨hst, hclear⟩ := hkept a hlo hhi
      by_contra ha
      exact (hchanged a ha).elim hst hclear
    rw [madtLapicaddr, hread, ← madtLapicaddr, hmadt]

/-- Before `vmm_init`, under the identity map of the boot loader, and after it, both accessors reach the
    register at `lapic_addr + reg`. -/
theorem apic_sameRegister (hM : UsableOk M) (hb : b.memmap = some M) (hal : b.hhdm.toNat % 4096 = 0)
    (hhigh : High b.hhdm) (hinit : pmmInit b (entryState mem) = .ok s₀) (hacpi : initAcpi b d s₀ = .ok s₁)
    (hl : s₁.lapicAddr.toNat % 4096 = 0) (hl' : 0x1000 ≤ s₁.lapicAddr.toNat) :
    (∀ mmu, LoaderMap mmu → ∀ base, LapicBase s₁ s₁ base →
      SameRegister mmu s₁.hhdmoffset s₁.lapicAddr.toNat base) ∧
    (∀ s, vmmInit b s₁ = .ok s → ∀ base, LapicBase s₁ s base →
      SameRegister s.mmu s.hhdmoffset s₁.lapicAddr.toNat base) := by
  have hlt := s₁.lapicAddr.isLt
  have hmadt := initAcpi_lapicAddr hacpi
  have hoff₁ : s₁.hhdmoffset = 0 := by rw [initAcpi_globals hacpi, pmmInit_hhdmoffset hb hinit]
  have hnat : (s₁.lapicAddr.setWidth 64).toNat = s₁.lapicAddr.toNat := by
    rw [BitVec.toNat_setWidth]
    omega
  refine ⟨fun mmu hmmu base hbase => ?_, fun s h base hbase => ?_⟩
  · obtain rfl := lapicBase_eq hbase hmadt rfl rfl fun _ ha => absurd rfl ha
    have page : ∀ va, va.toNat / 4096 = (s₁.lapicAddr.setWidth 64).toNat / 4096 →
        ∃ tr, mmu va = some tr ∧ tr.page = s₁.lapicAddr.toNat ∧ tr.writable = true := fun va hva => by
      obtain ⟨tr, htr, hpage, hwrite⟩ := hmmu va (by omega) (by omega)
      exact ⟨tr, htr, by omega, hwrite⟩
    have hzero : s₁.lapicAddr.setWidth 64 + (0 : Word) = s₁.lapicAddr.setWidth 64 := BitVec.add_zero _
    rw [hoff₁]
    refine sameRegister_of_pages (by omega) rfl (fun va hva => ?_) fun va hva => page va (by rwa [hzero] at hva)
    obtain ⟨tr, htr, hpage, -⟩ := page va hva
    exact ⟨tr, htr, hpage⟩
  · have hap := (pmmInit_ready hM hb hinit).apart hM
    have hap₁ : PmmApart { s₁ with hhdmoffset := b.hhdm } := by
      rw [initAcpi_globals hacpi]
      exact ⟨hap.clearApart, hap.count⟩
    have hmap := vmmInit_lapic hap₁ hal hhigh hl hl' h
    obtain rfl := lapicBase_eq hbase hmadt hmap.lapicAddr hmap.madt hmap.changed
    rw [hmap.hhdm]
    have hvpn : ∀ {va va' : Word}, va.toNat / 4096 = va'.toNat / 4096 → vpn va = vpn va' := fun hva => by
      rw [vpn, vpn, hva]
    have hpage : ∀ flags, (pageWith (s₁.lapicAddr.setWidth 64) flags).page = s₁.lapicAddr.toNat := fun _ => hnat
    refine sameRegister_of_pages (by omega) hal (fun va hva => ?_) fun va hva => ?_
    · refine ⟨_, ?_, hpage (PTE_BIT_PRESENT ||| PTE_BIT_READ_WRITE ||| PTE_BIT_EXECUTE_DISABLE)⟩
      rw [mmu, if_pos (Or.inl (by rw [Low]; omega)), hmap.identity va (hvpn hva)]
    · refine ⟨_, ?_, hpage (PTE_BIT_PRESENT ||| PTE_BIT_READ_WRITE), rfl⟩
      rw [mmu, if_pos (low_or_high_add (by omega) hhigh (by omega) hal hva), hmap.direct va (hvpn hva)]

end

/-- The machine with 64 MiB has its LAPIC at 0xfee00000. -/
theorem apic_sameRegister_sample : ∃ s₁ s mmu, LoaderMap mmu ∧ vmmInit (sampleBoot acpiMap) s₁ = .ok s ∧
    SameRegister mmu s₁.hhdmoffset 0xfee00000 (s₁.lapicAddr.setWidth 64) ∧
    SameRegister s.mmu s.hhdmoffset 0xfee00000 (madtLapicaddr s₁) := by
  obtain ⟨s₀, s₁, s, h⟩ := startMemory_acpiMap
  have hacpi := initAcpi_sample (M := acpiMap) h.mem h.madtOk (pmmInit_hhdmoffset rfl h.init)
  have hlapic : s₁.lapicAddr.toNat = 0xfee00000 := by
    rw [h.acpi] at hacpi
    rw [Except.ok.inj hacpi]
    rfl
  obtain ⟨hbefore, hafter⟩ := apic_sameRegister acpiMap_like.ok rfl (by decide) (by decide) h.init h.acpi (by omega) (by omega)
  rw [hlapic] at hbefore hafter
  refine ⟨s₁, s, fun va => some ⟨va.toNat / 4096 * 4096, true, true, false, 0⟩, fun va _ _ => ⟨_, rfl, rfl, rfl⟩, h.vmm, ?_, ?_⟩
  · exact hbefore _ (fun va _ _ => ⟨_, rfl, rfl, rfl⟩) _ .lapicAddr
  · exact hafter s h.vmm _ .lapicAddress

end Neobird64
