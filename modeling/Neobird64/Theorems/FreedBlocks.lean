import Neobird64.Theorems.SelfMap

/-! `vmm_free_page` through whole runs on the page tables that it edits. The runs end before the memory manager loses
    the way to its own tables and bitmap, which `vmm_map_page` and `vmm_free_page` can map and free like any page. -/

namespace Neobird64
open State Paging PathTree

/-- The runs of kernel and clients in which all pointers of the memory manager lead where they should, and the pages
    of the kernel stay. -/
inductive PagedRun (b : Boot) (M : List MemmapEntry) (s₁ : State) : State → Finset Nat → Prop
  | start (hself : Intact b M s₁ s₁) : PagedRun b M s₁ s₁ ∅
  | step {s s' : State} {held held' : Finset Nat} (h : PagedRun b M s₁ s held) (hs : FrameStep s held s' held')
      (hself : Intact b M s₁ s') : PagedRun b M s₁ s' held'

section
variable {M : List MemmapEntry} {b : Boot} {d : Devices} {mem : Memory} {s₀ s₁ s s' : State} {held : Finset Nat} {va : Word}

theorem PagedRun.frameRun (h : PagedRun b M s₁ s held) : FrameRun s₁ s held := by
  induction h with
  | start => exact .start
  | step _ hs _ ih => exact ih.step hs

/-- In every run after `vmm_init` in which pages and blocks are freed by clients that hold them, the next
    call of `vmm_free_page` frees only what clients hold exactly when its page is mapped to a held block. -/
theorem vmmFreePage_freesHeld (hM : UsableOk M) (hb : b.memmap = some M) (hstart : startMemory b d mem = .ok s₁)
    (hrun : PagedRun b M s₁ s held) (h : vmmFreePage s s.kernelPageMap va = .ok s') :
    FreesHeld M s held va s' ↔ ∃ tr, walk s.mem s.root va = some tr ∧ tr.page / 4096 ∈ held := by
  obtain ⟨s₀, ready, h0, inv⟩ := startMemory_frameInv hM hb hstart
  exact (FrameRun.inv h0 inv hrun.frameRun).freesHeld_iff ready h0 h

end

/-- A client takes a block and has it mapped; `vmm_free_page` gives it back. -/
theorem vmmFreePage_freesHeld_sample : ∃ s₁ s s' held va, startMemory (sampleBoot acpiMap) acpiDevices acpiMemory = .ok s₁ ∧
    PagedRun (sampleBoot acpiMap) acpiMap s₁ s held ∧ vmmFreePage s s.kernelPageMap va = .ok s' ∧ held.Nonempty ∧
    FreesHeld acpiMap s held va s' := by
  obtain ⟨s₀, s₁, s₂, hm⟩ := startMemory_acpiMap
  obtain ⟨t₀, -, h0, inv⟩ := startMemory_frameInv acpiMap_like.ok rfl hm.start
  obtain ⟨n, s, haddr, hne, hlt, hmap, hleaf, hvmm⟩ := hm.exists_map
  have hallowed := permitted_sample (addressSpace s₂) (blockAddr n) (PTE_BIT_PRESENT ||| PTE_BIT_READ_WRITE)
  have hself := hm.intact_run _ hallowed hvmm
  have halloc : Transducer.run VmmCall.exec s₂ [.alloc] = .ok ((pmmAllocBlock s₂).2, [(pmmAllocBlock s₂).1]) := by
    rw [Transducer.run_singleton, VmmCall.exec]
  have hself₁ := hm.intact_run [.alloc] ⟨hallowed.1, fun _ _ => trivial⟩ halloc
  have hrun := ((PagedRun.start hm.intact).step (.alloc (haddr ▸ hne)) hself₁).step (.map hmap) hself
  have haddr' := blockAddr_toNat (n := n) (by omega)
  have hdiv : (blockAddr n).toNat / 4096 = n := by omega
  rw [haddr, hdiv, insert_empty_eq] at hrun
  have inv' := FrameRun.inv h0 inv hrun.frameRun
  have hwalk := walk_of_leaf inv'.wf hleaf (by omega) (by omega) (by decide) (by decide)
  obtain ⟨t, ht⟩ : ∃ t, follow (child s.mem) s.root (upper 0xffff900000000000) = some t :=
    exists_table_of_leaf fun hzero => by
      rw [inv'.wf.tree.walk, hzero] at hwalk
      cases hwalk
  have hh : HhdmOk s := (vmmMapPage_onlyMem hmap).hhdmOk (pmmAllocBlock_onlyMem.hhdmOk hm.hhdmOk)
  obtain ⟨s', h⟩ := vmmFreePage_ok_of_table inv'.wf hh ht
  rw [tableVirt_root] at h
  refine ⟨s₂, s, s', _, _, hm.start, hrun, h, Finset.singleton_nonempty n,
    (vmmFreePage_freesHeld acpiMap_like.ok rfl hm.start hrun h).mpr ⟨_, hwalk, ?_⟩⟩
  rw [pageWith, Finset.mem_singleton]
  simp only
  omega

/-! ### Page 0 -/

namespace AcpiStart
variable {s₀ s₁ s : State} (h : AcpiStart s₀ s₁ s)
include h

/-- Block 0 is used after `vmm_init`, and neither a page table nor part of the bitmap, which starts at 1 MiB. -/
theorem dataBlock_zero : DataBlock s s.root 0 := by
  obtain ⟨t₀, ready, h0, inv⟩ := startMemory_frameInv acpiMap_like.ok rfl h.start
  have hlt : 0 < s.scanned := by
    rw [inv.scanned, scanned_eq, ready.count, acpiMap_like.count]
    omega
  have hused : 0 ∈ usedBlocks t₀ := mem_usedBlocks.mpr ⟨by rw [← inv.scanned]; exact hlt, h0⟩
  refine ⟨hlt, (inv.init_used hused).2, fun p t ht hdiv => ?_, fun a ha hst => ?_⟩
  · have hmod := inv.wf.table_mod ht
    obtain rfl : t = 0 := by omega
    exact Set.disjoint_left.mp inv.accounted.initTables hused ⟨p, ht⟩
  · obtain ⟨i, hi, rfl⟩ := hst
    obtain ⟨k, hB, -⟩ := h.booted
    have haddr : (0x100000 : Word).toNat = 0x100000 := rfl
    rw [bitmapBytes_of_count hB.count, acpiMap_like.size] at hi
    rw [bitmapAddr, hB.bitmap, acpiMap_like.addr, BitVec.toNat_add, haddr, BitVec.toNat_ofNat] at ha
    omega

/-- Page 0 is not mapped, but it has a page table, which it shares with page 1. -/
theorem freePage_zero : vmmFreePage s s.kernelPageMap 0 = .ok (mmapUnset s (0 : Nat)) ∧ walk s.mem s.root 0 = none ∧
    freedAddr s s.kernelPageMap 0 = .ok 0 := by
  obtain ⟨k, hB, hspans, -⟩ := h.booted
  have L := acpiMap_windows.layout hspans
  have hleaf : leaf s.mem s.root 0 = 0 := L.leaf_low hB (by decide) (Or.inl (by decide))
  have hone : leaf s.mem s.root 0x1000 = _ := L.leaf_identity hB (by decide) (by decide)
  obtain ⟨t, ht⟩ : ∃ t, follow (child s.mem) s.root (upper 0x1000) = some t :=
    exists_table_of_leaf (by rw [hone]; decide)
  have hfree : vmmFreePage s (tableVirt s s.root) 0 = .ok (mmapUnset s (0 : Nat)) :=
    vmmFreePage_empty hB.wf h.hhdmOk h.dataBlock_zero.scanned ht hleaf
  have hfreed := freedAddr_eq hB.wf hfree
  rw [hleaf] at hfreed
  rw [tableVirt_root] at hfree hfreed
  refine ⟨hfree, ?_, hfreed⟩
  rw [hB.wf.tree.walk, hleaf]
  rfl

/-- The memory manager still has its pointers after page 0 was freed. -/
theorem intact_freePage : Intact (sampleBoot acpiMap) acpiMap s (mmapUnset s (0 : Nat)) := by
  obtain ⟨k, hB, -⟩ := h.booted
  have hzero := h.dataBlock_zero
  refine h.intact.congr hB.cr3 hB.wf (hB.wf.free hzero) OnlyMem.mmapUnset (hB.wf.tables_mmapUnset hzero.scanned)
    fun n hn hne => ?_
  rw [clear_mmapUnset hB.wf.scanned_le hzero.scanned, Finset.mem_insert] at hn
  exact hn.resolve_left hne

end AcpiStart

/-- Freeing page 0, which is not mapped, gives block 0 to the allocator. -/
theorem frees_block_zero : ∃ s s', startMemory (sampleBoot acpiMap) acpiDevices acpiMemory = .ok s ∧
    PagedRun (sampleBoot acpiMap) acpiMap s s ∅ ∧
    walk s.mem s.root 0 = none ∧ vmmFreePage s s.kernelPageMap 0 = .ok s' ∧ ¬FreesHeld acpiMap s ∅ 0 s' := by
  obtain ⟨s₀, s₁, s, h⟩ := startMemory_acpiMap
  obtain ⟨hfree, hwalk, hfreed⟩ := h.freePage_zero
  exact ⟨s, _, h.start, .start h.intact, hwalk, hfree, fun hf => absurd (hf.owned _ hfreed) (by simp)⟩

end Neobird64
