import Neobird64.Theorems.AddressSpace

/-! The pointers that `pmm_init` and `init_acpi` keep are addresses under the boot loader's identity map.
    `vmm_init` maps an address to itself in the low 4 GiB above page 0 only, so a range of bytes survives
    the switch exactly when it lies there. -/

namespace Neobird64
open State Paging PathTree

/-- The `n` bytes from the pointer on have, after `vmm_init`, the physical addresses that they had before
    it, when `hhdmoffset` was 0. -/
def Kept (s₁ s : State) (ptr : State → Word) (n : Nat) : Prop := ∀ i < n,
  Paging.translate s.mem s.cr3.toNat (ptr s + BitVec.ofNat 64 i) = some (s₁.phys .identity (ptr s₁ + BitVec.ofNat 64 i))

/-- The bitmap and the tables that the kernel found are where they were. -/
structure PointersKept (s₁ s : State) : Prop where
  bitmap : Kept s₁ s pmmBitmap (bitmapBytes s₁)
  madt : Kept s₁ s madt (tableLength s₁ s₁.madt).toNat
  fadt : Kept s₁ s fadt (tableLength s₁ s₁.fadt).toNat

/-- The `n` bytes from `p` on are in the low 4 GiB, and not in page 0. -/
def InIdentity (p : Word) (n : Nat) : Prop := n = 0 ∨ 0x1000 ≤ p.toNat ∧ p.toNat + n ≤ 2 ^ 32

section
variable {b : Boot} {d : Devices} {M : List MemmapEntry} {k : KernelAddress} {s₀ s₁ s : State} {mem : Memory} {p va : Word} {n : Nat}

/-- An address translates to itself exactly in the identity map. -/
theorem HhdmLayout.translate_self_iff (h : HhdmLayout b s) (hB : Booted b M k s₀ s) :
    Paging.translate s.mem s.cr3.toNat p = some p.toNat ↔ 0x1000 ≤ p.toNat ∧ p.toNat < 2 ^ 32 := by
  constructor
  · intro ht
    rw [Paging.translate] at ht
    split at ht
    · rename_i hhalf
      obtain ⟨tr, htr, hp⟩ := Option.map_eq_some_iff.mp ht
      rcases hhalf with hlow | hhigh
      · by_contra hout
        rw [hB.walk_of_leaf_zero (h.leaf_low hB hlow (by omega))] at htr
        cases htr
      · rw [hB.cr3] at htr
        have hlt := frame_lt (leaf s.mem s.root p)
        rw [hB.wf.tree.page_eq htr] at hp
        rw [High] at hhigh
        omega
    · cases ht
  · rintro ⟨hlo, hhi⟩
    have hlow : Low p := by rw [Low]; omega
    have hdown := alignDown_toNat (x := p)
    rw [Paging.translate, if_pos (Or.inl hlow), hB.walk_of_leaf (h.leaf_identity hB hlo hhi) (by omega) (by omega) (by decide)
      (by decide), Option.map_some, pageWith, hdown]
    refine congrArg some ?_
    simp only
    omega

theorem HhdmLayout.kept_iff (h : HhdmLayout b s) (hB : Booted b M k s₀ s) (ptr : State → Word) (hptr : ptr s = ptr s₁)
    (hn : n ≤ 2 ^ 32) : Kept s₁ s ptr n ↔ InIdentity (ptr s₁) n := by
  have hbyte : ∀ i, (Paging.translate s.mem s.cr3.toNat (ptr s + BitVec.ofNat 64 i) =
      some (s₁.phys .identity (ptr s₁ + BitVec.ofNat 64 i)) ↔
        0x1000 ≤ (ptr s₁ + BitVec.ofNat 64 i).toNat ∧ (ptr s₁ + BitVec.ofNat 64 i).toNat < 2 ^ 32) := fun i => by
    rw [hptr]
    exact h.translate_self_iff hB
  have hadd : ∀ i, (ptr s₁ + BitVec.ofNat 64 i).toNat = ((ptr s₁).toNat + i) % 2 ^ 64 := fun i => by
    rw [BitVec.toNat_add, BitVec.toNat_ofNat, Nat.add_mod_mod]
  simp only [Kept, hbyte, hadd, InIdentity]
  constructor
  · intro hk
    rcases Nat.eq_zero_or_pos n with hz | hpos
    · exact Or.inl hz
    · have hfirst := hk 0 hpos
      have hlast := hk (n - 1) (by omega)
      have hlt := (ptr s₁).isLt
      omega
  · intro hin i hi
    omega

/-- The bitmap, the MADT and the FADT stay where the kernel's pointers say exactly when they lie in the
    low 4 GiB above page 0. -/
theorem pointersKept_iff (hM : UsableOk M) (hb : b.memmap = some M) (hinit : pmmInit b (entryState mem) = .ok s₀)
    (hacpi : initAcpi b d s₀ = .ok s₁) (h : HhdmLayout b s₁) (hvmm : vmmInit b s₁ = .ok s) :
    PointersKept s₁ s ↔ InIdentity s₁.pmmBitmap (bitmapBytes s₁) ∧
      InIdentity s₁.madt (tableLength s₁ s₁.madt).toNat ∧ InIdentity s₁.fadt (tableLength s₁ s₁.fadt).toNat := by
  obtain ⟨k, hB, hspans, hmadt, hfadt⟩ := startMemory_parts hM hb hinit hacpi h hvmm
  have L := h.congr hspans
  have ready := pmmInit_ready hM hb hinit
  have hglobals := initAcpi_globals hacpi
  have hbitmap : s.pmmBitmap = s₁.pmmBitmap := by rw [hB.bitmap, hglobals, ready.bitmap]
  have hbytes : bitmapBytes s₁ = bitmapSize M := bitmapBytes_of_count (by rw [hglobals, ready.count])
  have hsize := hM.bitmapSize_le
  have h1 := L.kept_iff hB pmmBitmap hbitmap (n := bitmapBytes s₁) (by omega)
  have h2 := L.kept_iff hB State.madt hmadt (tableLength s₁ s₁.madt).isLt.le
  have h3 := L.kept_iff hB State.fadt hfadt (tableLength s₁ s₁.fadt).isLt.le
  rw [← h1, ← h2, ← h3]
  exact ⟨fun ⟨hb, hm, hf⟩ => ⟨hb, hm, hf⟩, fun ⟨hb, hm, hf⟩ => ⟨hb, hm, hf⟩⟩

end

/-- With the tables in the low 4 GiB, all three stay. -/
theorem pointersKept_sample : ∃ s₀ s₁ s, pmmInit (sampleBoot lowMap) (entryState lowMemory) = .ok s₀ ∧
    initAcpi (sampleBoot lowMap) acpiDevices s₀ = .ok s₁ ∧ vmmInit (sampleBoot lowMap) s₁ = .ok s ∧ PointersKept s₁ s := by
  obtain ⟨s₀, s₁, s, h⟩ := startMemory_lowMap
  have ready := pmmInit_ready lowMap_like.ok rfl h.init
  have hglobals := initAcpi_globals h.acpi
  have hbitmap : s₁.pmmBitmap = 0x100000 := by rw [hglobals, ready.bitmap, lowMap_like.addr]
  have hbytes : bitmapBytes s₁ = 2048 := by
    rw [bitmapBytes_of_count (by rw [hglobals, ready.count]), lowMap_like.size]
  refine ⟨s₀, s₁, s, h.init, h.acpi, h.vmm,
    (pointersKept_iff lowMap_like.ok rfl h.init h.acpi h.layout h.vmm).mpr ⟨?_, ?_, ?_⟩⟩
  · rw [hbitmap, hbytes, InIdentity]
    decide
  · rw [h.madtAddr, tableLength_sample h.mem_acpi h.madtOk, InIdentity]
    decide
  · rw [h.fadtAddr, fadtLength_sample h.mem_acpi h.madtOk, InIdentity]
    decide

/-- The MADT at 4 GiB is above the identity map: its pointer leads nowhere after `vmm_init`. -/
theorem madt_unmapped : ∃ s₀ s₁ s, pmmInit (sampleBoot acpiMap) (entryState acpiMemory) = .ok s₀ ∧
    initAcpi (sampleBoot acpiMap) acpiDevices s₀ = .ok s₁ ∧ vmmInit (sampleBoot acpiMap) s₁ = .ok s ∧
    s.madt = 0x100000000 ∧ ¬PointersKept s₁ s := by
  obtain ⟨s₀, s₁, s, h⟩ := startMemory_acpiMap
  obtain ⟨k, hB, hspans, hmadt⟩ := h.booted
  have hlen : tableLength s₁ s₁.madt = 56 := by rw [h.madtAddr, tableLength_sample h.mem_acpi h.madtOk]
  refine ⟨s₀, s₁, s, h.init, h.acpi, h.vmm, hmadt.trans h.madtAddr, fun hk => ?_⟩
  have hin := ((acpiMap_windows.layout hspans).kept_iff hB madt hmadt (tableLength s₁ s₁.madt).isLt.le).mp hk.madt
  rw [hlen, h.madtAddr] at hin
  revert hin
  rw [InIdentity]
  decide

end Neobird64
