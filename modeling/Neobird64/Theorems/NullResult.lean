import Neobird64.Theorems.FreedBlocks

/-! What a NULL from `pmm_alloc_block` means. The address of block 0 is NULL too, so NULL means that
    nothing is free exactly while block 0 is not free. -/

namespace Neobird64
open State Paging PathTree

/-- NULL from `pmm_alloc_block` means that no scanned bit is clear, and costs nothing; so its callers do
    not panic while a block is free. -/
structure NullMeansEmpty (s : State) : Prop where
  null : (pmmAllocBlock s).1 = 0 ↔ ∀ n < s.scanned, s.bit n = true
  kept : (pmmAllocBlock s).1 = 0 → ∀ a, (pmmAllocBlock s).2.mem a = s.mem a
  table : s.clear.Nonempty → ∀ pageMapPtr indx msg, getLowerTable s pageMapPtr indx ≠ .error (.panic msg)
  pageMap : s.clear.Nonempty → ∀ hhdm msg, newPageMap { s with hhdmoffset := hhdm } ≠ .error (.panic msg)

/-- The pointers of the memory manager lead where they should, and the kernel still has its pages: through the map of
    the boot loader, until `vmm_init` loads the kernel's own. -/
def WindowsHold (b : Boot) (d : Devices) (mem : Memory) (s : State) : Prop :=
  s.cr3 = 0 ∨ ∃ M s₁, b.memmap = some M ∧ startMemory b d mem = .ok s₁ ∧ Intact b M s₁ s

/-- The states that are reached after `pmm_init`, or after the whole sequence of `_start`, by any calls of
    the functions that use the allocator, while its pointers and those to page tables lead where they should. -/
inductive CallRun (b : Boot) (d : Devices) (mem : Memory) : State → Prop
  | pmmInit {s : State} (h : pmmInit b (entryState mem) = .ok s) (hw : WindowsHold b d mem s) : CallRun b d mem s
  | start {s : State} (h : startMemory b d mem = .ok s) (hw : WindowsHold b d mem s) : CallRun b d mem s
  | alloc {s : State} (h : CallRun b d mem s) (hw : WindowsHold b d mem (pmmAllocBlock s).2) : CallRun b d mem (pmmAllocBlock s).2
  | free {s : State} {addr : Word} (h : CallRun b d mem s) (hw : WindowsHold b d mem (pmmFreeBlock s addr)) :
      CallRun b d mem (pmmFreeBlock s addr)
  | map {s s' : State} {pageMap va pa flags : Word} (h : CallRun b d mem s)
      (hm : vmmMapPage s pageMap va pa flags = .ok s') (hw : WindowsHold b d mem s') : CallRun b d mem s'
  | freePage {s s' : State} {pageMap va : Word} (h : CallRun b d mem s) (hf : vmmFreePage s pageMap va = .ok s')
      (hw : WindowsHold b d mem s') : CallRun b d mem s'

/-- Those runs in which `pmm_free_block` and `vmm_free_page` are given used blocks only, other than block 0,
    page tables and the bitmap. -/
inductive CarefulRun (b : Boot) (M : List MemmapEntry) (s₁ : State) : State → Prop
  | start (hself : Intact b M s₁ s₁) : CarefulRun b M s₁ s₁
  | alloc {s : State} (h : CarefulRun b M s₁ s) (hself : Intact b M s₁ (pmmAllocBlock s).2) :
      CarefulRun b M s₁ (pmmAllocBlock s).2
  | free {s : State} {addr : Word} (h : CarefulRun b M s₁ s) (h0 : addr.toNat / 4096 ≠ 0)
      (hd : DataBlock s s.root (addr.toNat / 4096)) (hself : Intact b M s₁ (pmmFreeBlock s addr)) :
      CarefulRun b M s₁ (pmmFreeBlock s addr)
  | map {s s' : State} {va pa flags : Word} (h : CarefulRun b M s₁ s)
      (hm : vmmMapPage s s.kernelPageMap va pa flags = .ok s') (hself : Intact b M s₁ s') : CarefulRun b M s₁ s'
  | freePage {s s' : State} {va addr : Word} (h : CarefulRun b M s₁ s) (ha : freedAddr s s.kernelPageMap va = .ok addr)
      (h0 : addr.toNat / 4096 ≠ 0) (hd : DataBlock s s.root (addr.toNat / 4096))
      (hf : vmmFreePage s s.kernelPageMap va = .ok s') (hself : Intact b M s₁ s') : CarefulRun b M s₁ s'

section
variable {b : Boot} {d : Devices} {M : List MemmapEntry} {mem : Memory} {s s₁ s' : State} {pageMap va pageMapPtr indx hhdm : Word}
variable {msg : String}

/-! ### One call -/

theorem clear_eq_empty : s.clear = ∅ ↔ ∀ n < s.scanned, s.bit n = true := by
  rw [Finset.eq_empty_iff_forall_notMem]
  refine forall_congr' fun n => ?_
  rw [mem_clear, not_and, Bool.not_eq_false]

/-- The test of bit 0 that the kernel could make. -/
theorem zero_not_clear_iff : 0 ∉ s.clear ↔ bitmapBytes s = 0 ∨ mmapTest s 0 = true := by
  have hbit : mmapTest s 0 = s.bit 0 := by
    have hmask : bitMask 0 = BitVec.twoPow 8 0 := bitMask_natCast 0
    have hptr : bitmapPtr s 0 = s.pmmBitmap + BitVec.ofNat 64 0 := bitmapPtr_natCast s 0
    have hbyte : s.bit 0 = (s.mem (s.pmmBitmap + BitVec.ofNat 64 0).toNat).getLsbD 0 := rfl
    rw [mmapTest, loadByte, phys, hmask, hptr, hbyte, Bool.eq_iff_iff, decide_eq_true_eq, Ne,
      and_twoPow_eq_zero (by omega), Bool.not_eq_false]
  rw [mem_clear, hbit, scanned]
  cases s.bit 0 <;> simp

theorem nullMeansEmpty_of_zero (hs : s.scanned ≤ 2 ^ 52) (h0 : 0 ∉ s.clear) : NullMeansEmpty s := by
  have hnull : s.clear.Nonempty → ∀ t : State, t.clear = s.clear → t.scanned = s.scanned → (pmmAllocBlock t).1 ≠ 0 := by
    intro hne t hclear hscan
    rw [← hclear] at hne h0
    cases hl : FirstFit.least t.clear with
    | none => exact absurd (FirstFit.least_eq_none.mp hl) hne.ne_empty
    | some n =>
      have hn := (FirstFit.least_eq_some.mp hl).1
      have hlt := (mem_clear.mp hn).1
      rw [pmmAllocBlock_eq (by omega) hl, Ne, blockAddr_eq_zero (by omega)]
      rintro rfl
      exact h0 hn
  have hempty : (pmmAllocBlock s).1 = 0 → s.clear = ∅ := fun h =>
    Finset.not_nonempty_iff_eq_empty.mp fun hne => hnull hne s rfl rfl h
  refine ⟨⟨fun h => clear_eq_empty.mp (hempty h), fun h => ?_⟩, fun h a => ?_, fun hne pageMapPtr indx msg h => ?_,
    fun hne hhdm msg h => ?_⟩
  · rw [pmmAllocBlock_of_empty (clear_eq_empty.mpr h)]
  · rw [pmmAllocBlock_of_empty (hempty h)]
  · have := hnull hne s rfl rfl
    simp only [getLowerTable, if_neg this] at h
    split at h <;> cases h
  · have := hnull hne { s with hhdmoffset := hhdm } rfl rfl
    simp only [newPageMap, if_neg this] at h
    cases h

/-- While block 0 is free, the allocator takes it and returns NULL. -/
theorem not_nullMeansEmpty (hs : s.scanned ≤ 2 ^ 52) (h0 : 0 ∈ s.clear) : ¬NullMeansEmpty s := fun h => by
  have hleast : FirstFit.least s.clear = some 0 := FirstFit.least_eq_some.mpr ⟨h0, fun k _ => Nat.zero_le k⟩
  have hnull : (pmmAllocBlock s).1 = 0 := by
    rw [pmmAllocBlock_eq hs hleast]
    rfl
  rw [clear_eq_empty.mpr (h.null.mp hnull)] at h0
  exact absurd h0 (Finset.notMem_empty 0)

/-! ### Runs of any calls -/

theorem pmmInit_count_le (h : pmmInit b (entryState mem) = .ok s) : s.pmmBlockCount.toNat ≤ 2 ^ 52 := by
  cases hb : b.memmap with
  | none =>
    simp only [pmmInit, hb] at h
    cases h
  | some M =>
    have hlt : usableBytes M < 2 ^ 64 := (memSize M 0).isLt
    rw [pmmInit_count hb h, blockCount]
    omega

theorem startMemory_count_le (h : startMemory b d mem = .ok s) : s.pmmBlockCount.toNat ≤ 2 ^ 52 := by
  obtain ⟨s₀, hinit, h⟩ := Loop.bind_eq_ok.mp h
  obtain ⟨s₁, hacpi, h⟩ := Loop.bind_eq_ok.mp h
  have hcount : s₁.pmmBlockCount = s₀.pmmBlockCount := by rw [initAcpi_globals hacpi]
  obtain ⟨t, ht, rfl⟩ : ∃ t, t.pmmBlockCount = s₀.pmmBlockCount ∧ s = vmmSetCtx t t.kernelPageMap := by
    refine vmmInit_inv _ (fun t ht => ?_) (fun t va pa flags t' ht hm => ?_) h
    · rw [(newPageMap_onlyMem ht).pmmBlockCount, ← hcount]
    · rw [(vmmMapPage_onlyMem hm).pmmBlockCount, ht]
  have := pmmInit_count_le hinit
  rwa [← ht] at this

theorem CallRun.count_le (h : CallRun b d mem s) : s.pmmBlockCount.toNat ≤ 2 ^ 52 := by
  induction h with
  | pmmInit h => exact pmmInit_count_le h
  | start h => exact startMemory_count_le h
  | alloc _ _ ih => rwa [pmmAllocBlock_onlyMem.pmmBlockCount]
  | free _ _ ih => exact ih
  | map _ hm _ ih => rwa [(vmmMapPage_onlyMem hm).pmmBlockCount]
  | freePage _ hf _ ih => rwa [(vmmFreePage_onlyMem hf).pmmBlockCount]

/-! ### Runs that free data blocks -/

/-- In a careful run the page map stays well formed and block 0 stays used. -/
theorem CarefulRun.inv (wf : WellFormed s₁ s₁.root) (h0 : 0 ∉ s₁.clear) (h : CarefulRun b M s₁ s) :
    WellFormed s s.root ∧ 0 ∉ s.clear := by
  induction h with
  | start => exact ⟨wf, h0⟩
  | @alloc s h _ ih =>
    obtain ⟨wf, h0⟩ := ih
    rw [pmmAllocBlock_onlyMem.root]
    cases hl : FirstFit.least s.clear with
    | none =>
      rw [pmmAllocBlock_of_empty (FirstFit.least_eq_none.mp hl)]
      exact ⟨wf, h0⟩
    | some n =>
      have hn := (FirstFit.least_eq_some.mp hl).1
      have hlt := (mem_clear.mp hn).1
      have hs := wf.scanned_le
      rw [pmmAllocBlock_of_least hs hl]
      refine ⟨wf.mmapSet hn, fun hmem => h0 ?_⟩
      rw [clear_mmapSet hs (by omega)] at hmem
      exact Finset.mem_of_mem_erase hmem
  | @free s addr h hne hd _ ih =>
    obtain ⟨wf, h0⟩ := ih
    have hs := wf.scanned_le
    have hlt := hd.scanned
    rw [pmmFreeBlock_eq (by omega), OnlyMem.mmapUnset.root, clear_mmapUnset hs hlt]
    exact ⟨wf.free hd, fun hmem => (Finset.mem_insert.mp hmem).elim (fun he => hne he.symm) h0⟩
  | map h hm _ ih =>
    obtain ⟨wf, h0⟩ := ih
    rw [← tableVirt_root] at hm
    have ext := vmmMapPage_extends wf hm
    rw [ext.only.root]
    exact ⟨ext.wf, fun hmem => h0 (ext.clear hmem)⟩
  | @freePage s s' va addr h ha hne hd hf _ ih =>
    obtain ⟨wf, h0⟩ := ih
    rw [← tableVirt_root] at hf ha
    rw [freedAddr_eq wf hf, Except.ok.injEq] at ha
    obtain ⟨t, ext, d, wf₁, ext', hclear⟩ := vmmFreePage_steps wf hd (by rw [frame, ha]) hf
    have hroot : s'.root = s.root := ((ext.only.trans OnlyMem.mmapUnset).trans ext'.only).root
    rw [hroot, hclear, clear_mmapUnset ext.wf.scanned_le d.scanned]
    exact ⟨ext'.wf, fun hmem => (Finset.mem_insert.mp hmem).elim (fun he => hne he.symm) fun h => h0 (ext.clear h)⟩

/-- After any calls, NULL means that nothing is free exactly when bit 0 is set or the bitmap is empty; and
    it always does in the runs that free data blocks only. -/
theorem nullMeansEmpty_iff (h : CallRun b d mem s) :
    (NullMeansEmpty s ↔ bitmapBytes s = 0 ∨ mmapTest s 0 = true) ∧
    (∀ M s₁, b.memmap = some M → UsableOk M → startMemory b d mem = .ok s₁ → CarefulRun b M s₁ s → NullMeansEmpty s) := by
  have hs : s.scanned ≤ 2 ^ 52 := by
    have := h.count_le
    rw [scanned_eq]
    omega
  refine ⟨?_, fun M s₁ hb hM hstart hrun => ?_⟩
  · rw [← zero_not_clear_iff]
    exact ⟨fun hn h0 => not_nullMeansEmpty hs h0 hn, nullMeansEmpty_of_zero hs⟩
  · obtain ⟨s₀, -, h0, inv⟩ := startMemory_frameInv hM hb hstart
    exact nullMeansEmpty_of_zero hs (hrun.inv inv.wf (inv.clear_ne_zero h0)).2

end

/-- A client takes a block and has it mapped, and block 0 is not free. -/
theorem nullMeansEmpty_sample : ∃ s n s', startMemory (sampleBoot acpiMap) acpiDevices acpiMemory = .ok s ∧
    (pmmAllocBlock s).1 = blockAddr n ∧
    vmmMapPage (pmmAllocBlock s).2 (pmmAllocBlock s).2.kernelPageMap 0xffff900000000000 (blockAddr n)
      (PTE_BIT_PRESENT ||| PTE_BIT_READ_WRITE) = .ok s' ∧
    CarefulRun (sampleBoot acpiMap) acpiMap s s' ∧ mmapTest s' 0 = true ∧ NullMeansEmpty s' := by
  obtain ⟨s₀, s₁, s, h⟩ := startMemory_acpiMap
  obtain ⟨n, s', haddr, -, -, hmap, -, hvmm⟩ := h.exists_map
  have hallowed := permitted_sample (addressSpace s) (blockAddr n) (PTE_BIT_PRESENT ||| PTE_BIT_READ_WRITE)
  have hself := h.intact_run _ hallowed hvmm
  have halloc : Transducer.run VmmCall.exec s [.alloc] = .ok ((pmmAllocBlock s).2, [(pmmAllocBlock s).1]) := by
    rw [Transducer.run_singleton, VmmCall.exec]
  have hself₁ := h.intact_run [.alloc] ⟨hallowed.1, fun _ _ => trivial⟩ halloc
  have hwindows : ∀ {t}, Intact (sampleBoot acpiMap) acpiMap s t → WindowsHold (sampleBoot acpiMap) acpiDevices acpiMemory t :=
    fun ht => Or.inr ⟨acpiMap, s, rfl, h.start, ht⟩
  have hcareful := ((CarefulRun.start h.intact).alloc hself₁).map hmap hself
  have hcall := ((CallRun.start h.start (hwindows h.intact)).alloc (hwindows hself₁)).map hmap (hwindows hself)
  obtain ⟨hiff, hkept⟩ := nullMeansEmpty_iff hcall
  have hnull := hkept _ _ rfl acpiMap_like.ok h.start hcareful
  have hbytes : bitmapBytes s' ≠ 0 := by
    obtain ⟨k, hB, -⟩ := h.booted
    have only : OnlyMem s s' := pmmAllocBlock_onlyMem.trans (vmmMapPage_onlyMem hmap)
    rw [bitmapBytes, only.pmmBlockCount, ← bitmapBytes, bitmapBytes_of_count hB.count, acpiMap_like.size]
    decide
  exact ⟨s, n, s', h.start, haddr, hmap, hcareful, (hiff.mp hnull).resolve_left hbytes, hnull⟩

/-- Freeing page 0, which is not mapped, gives block 0 to the allocator: its next result is NULL although
    blocks are free. -/
theorem null_while_blocks_free : ∃ s s', startMemory (sampleBoot acpiMap) acpiDevices acpiMemory = .ok s ∧
    vmmFreePage s s.kernelPageMap 0 = .ok s' ∧ CallRun (sampleBoot acpiMap) acpiDevices acpiMemory s' ∧ ¬NullMeansEmpty s' := by
  obtain ⟨s₀, s₁, s, h⟩ := startMemory_acpiMap
  obtain ⟨hfree, -, -⟩ := h.freePage_zero
  have hrun : CallRun (sampleBoot acpiMap) acpiDevices acpiMemory (mmapUnset s (0 : Nat)) :=
    .freePage (.start h.start (Or.inr ⟨acpiMap, s, rfl, h.start, h.intact⟩)) hfree
      (Or.inr ⟨acpiMap, s, rfl, h.start, h.intact_freePage⟩)
  obtain ⟨k, hB, -⟩ := h.booted
  have hmem : 0 ∈ (mmapUnset s (0 : Nat)).clear := by
    rw [clear_mmapUnset hB.wf.scanned_le h.dataBlock_zero.scanned]
    exact Finset.mem_insert_self 0 _
  have hs : (mmapUnset s (0 : Nat)).scanned ≤ 2 ^ 52 := by
    have := hrun.count_le
    rw [scanned_eq]
    omega
  exact ⟨s, _, h.start, hfree, hrun, not_nullMeansEmpty hs hmem⟩

end Neobird64
