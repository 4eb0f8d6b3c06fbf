import Neobird64.Theorems.Frames
import Neobird64.Theorems.AddressSpace

/-! What `vmm_free_page` gives back. It frees whatever block the entry of the page holds, without a check
    that the page is mapped or that the block was ever handed out, so it is safe exactly for the pages
    that map a block of a client. -/

namespace Neobird64
open State Paging PathTree

/-- The address that `vmm_free_page` passes to `pmm_free_block`. -/
def freedAddr (s : State) (pageMap virtualAddr : Word) : Except Halt Word := do
  let ptIndex := (virtualAddr >>> 12) &&& 0x1ff
  let (pt, s) ← getPt s pageMap virtualAddr
  if pt = 0 then throw .fault
  return s.load64 .hhdm (pt + 8 * ptIndex) &&& 0x000ffffffffff000

/-- A call of `vmm_free_page` from `s` to `s'` frees only a block that clients hold. -/
structure FreesHeld (M : List MemmapEntry) (s : State) (held : Finset Nat) (va : Word) (s' : State) : Prop where
  /-- The freed block was handed out and has not been freed since. -/
  owned : ∀ addr, freedAddr s s.kernelPageMap va = .ok addr → addr.toNat / 4096 ∈ held
  /-- It is not block 0, not past the bitmap, in no reserved or device memory, and no page table. -/
  usable : ∀ addr, freedAddr s s.kernelPageMap va = .ok addr → addr.toNat / 4096 ≠ 0 ∧
    addr.toNat / 4096 < s.scanned ∧ addr.toNat / 4096 ∈ usablePages M ∧
    ∀ p t, Table s'.mem s.root p t → t / 4096 ≠ addr.toNat / 4096
  /-- No bit is cleared for a page that is not mapped. -/
  unmapped : walk s.mem s.root va = none → ∀ n < s.scanned, s.bit n = true → s'.bit n = true
  /-- Only the bitmap and page tables are written. -/
  writes : ∀ a, s'.mem a ≠ s.mem a → s.Storage a ∨ ∃ p t, Table s'.mem s.root p t ∧ t ≤ a ∧ a < t + 4096

section
variable {M : List MemmapEntry} {b : Boot} {d : Devices} {mem : Memory} {s₀ s₁ s s' : State} {held : Finset Nat} {va : Word}
variable {root t : Nat}

/-- The freed address is the one in the entry of the page, present or not. -/
theorem freedAddr_eq (wf : WellFormed s root) (h : vmmFreePage s (tableVirt s root) va = .ok s') :
    freedAddr s (tableVirt s root) va = .ok (leaf s.mem root va &&& addrMask) := by
  simp only [vmmFreePage, index_eq] at h
  obtain ⟨⟨q, s₁⟩, h₁, h⟩ := Loop.bind_eq_ok.mp h
  dsimp only at h
  split at h
  · cases h
  · rename_i hq
    obtain ⟨t, rfl, ext, hl, ht⟩ := getPt_extends wf h₁ hq
    have htlt := ext.wf.table_lt (p := upper va) ⟨le_rfl, ht⟩
    have hload : s₁.load64 .hhdm (tableVirt s t + 8 * BitVec.ofNat 64 (index va 12)) = leaf s.mem root va := by
      rw [← ext.only.tableVirt, load64_entry (by omega), ← leaf_of_table ht, hl]
    simp only [freedAddr, index_eq, h₁, Loop.ok_bind, if_neg hq, hload]
    rfl

theorem vmmFreePage_ok_of_table (wf : WellFormed s root) (hh : HhdmOk s)
    (ht : follow (child s.mem) root (upper va) = some t) : ∃ s', vmmFreePage s (tableVirt s root) va = .ok s' := by
  have htlt := wf.table_lt (p := upper va) ⟨le_rfl, ht⟩
  simp only [vmmFreePage, index_eq, getPt_of_table wf hh ht, Loop.ok_bind, if_neg (tableVirt_ne_zero hh htlt)]
  exact ⟨_, rfl⟩

/-- The call for a page with a page table and an empty entry clears the bit of block 0, and does nothing else. -/
theorem vmmFreePage_empty (wf : WellFormed s root) (hh : HhdmOk s) (h0 : 0 < s.scanned)
    (ht : follow (child s.mem) root (upper va) = some t) (hleaf : leaf s.mem root va = 0) :
    vmmFreePage s (tableVirt s root) va = .ok (mmapUnset s (0 : Nat)) := by
  have htlt := wf.table_lt (p := upper va) ⟨le_rfl, ht⟩
  have hload : s.load64 .hhdm (tableVirt s t + 8 * BitVec.ofNat 64 (index va 12)) = 0 := by
    rw [load64_entry (by omega), ← leaf_of_table ht, hleaf]
  have hfree : pmmFreeBlock s ((0 : Word) &&& 0x000ffffffffff000) = mmapUnset s (0 : Nat) := pmmFreeBlock_eq (by decide)
  have hkept : (mmapUnset s (0 : Nat)).load64 .hhdm (tableVirt s t + 8 * BitVec.ofNat 64 (index va 12)) = 0 := by
    have hvirt : tableVirt (mmapUnset s (0 : Nat)) t = tableVirt s t := OnlyMem.mmapUnset.tableVirt
    have ht' : follow (child (mmapUnset s (0 : Nat)).mem) root (upper va) = some t := by
      rw [follow_eq_of_tables (wf.tables_mmapUnset h0) le_rfl, ht]
    rw [← hvirt, load64_entry (by omega), ← leaf_of_table ht', leaf_eq_of_tables (wf.tables_mmapUnset h0), hleaf]
  have hstore : (mmapUnset s (0 : Nat)).store64 .hhdm (tableVirt s t + 8 * BitVec.ofNat 64 (index va 12)) 0 =
      mmapUnset s (0 : Nat) := by
    rw [← hkept, store64, load64, Memory.write64_read64]
  simp only [vmmFreePage, index_eq, getPt_of_table wf hh ht, Loop.ok_bind, if_neg (tableVirt_ne_zero hh htlt), hload, hfree,
    hstore]
  rfl

/-! ### The blocks of clients -/

namespace FrameInv
variable (inv : FrameInv s₀ s held)
include inv

/-- A block that a client holds is a usable page that was free after `pmm_init`. -/
theorem held_usable {n : Nat} (ready : PmmReady M s₀) (hn : n ∈ held) : n ∈ usablePages M := by
  have hlt := (inv.held_used hn).1
  rw [inv.scanned] at hlt
  have hfree : s₀.bit n = false := by
    cases hbit : s₀.bit n with
    | false => rfl
    | true => exact absurd hn (Set.disjoint_left.mp inv.accounted.initHeld (show n ∈ usedBlocks s₀ from ⟨hlt, hbit⟩))
  exact ((ready.clear n hlt).mp hfree).1

theorem freePage_writes (hn : frame (leaf s.mem s.root va) / 4096 ∈ held)
    (h : vmmFreePage s s.kernelPageMap va = .ok s') {a : Nat} (ha : s'.mem a ≠ s.mem a) :
    s.Storage a ∨ ∃ p t, Table s'.mem s.root p t ∧ t ≤ a ∧ a < t + 4096 := by
  obtain ⟨s₁, s₂, ext, hs₂, -, ext₂, -⟩ := inv.freePage_eq hn h
  have hlt := ((inv.extend ext).held_used hn).1
  have only : OnlyMem s s₂ := by
    rw [hs₂]
    exact ext.only.trans OnlyMem.mmapUnset
  by_cases h2 : s'.mem a = s₂.mem a
  · by_cases h1 : s₂.mem a = s₁.mem a
    · -- The byte was written by `get_pt`.
      rw [h2, h1] at ha
      refine (ext.changed a ha).imp_right fun ⟨p, t, ht, hlo, hhi⟩ => ⟨p, t, ext₂.kept p t ?_, hlo, hhi⟩
      rw [hs₂, table_iff_of_tables (ext.wf.tables_mmapUnset hlt)]
      exact ht
    · left
      by_contra hst
      refine h1 ?_
      rw [hs₂]
      exact mem_mmapUnset_of_not_storage hlt fun h => hst (ext.only.storage.mp h)
  · rw [← only.storage]
    exact ext₂.changed a h2

theorem freePage_clear (hn : frame (leaf s.mem s.root va) / 4096 ∈ held)
    (h : vmmFreePage s s.kernelPageMap va = .ok s') : frame (leaf s.mem s.root va) / 4096 ∈ s'.clear := by
  obtain ⟨s₁, s₂, ext, hs₂, -, -, hclear⟩ := inv.freePage_eq hn h
  have hinv₁ := inv.extend ext
  rw [hclear, hs₂, clear_mmapUnset hinv₁.wf.scanned_le (hinv₁.held_used hn).1]
  exact Finset.mem_insert_self _ _

theorem freePage_not_table (hn : frame (leaf s.mem s.root va) / 4096 ∈ held)
    (h : vmmFreePage s s.kernelPageMap va = .ok s') {p : List (Fin 512)} {t : Nat} (ht : Table s'.mem s.root p t) :
    t / 4096 ≠ frame (leaf s.mem s.root va) / 4096 := by
  obtain ⟨s₁, s₂, -, -, -, ext₂, -⟩ := inv.freePage_eq hn h
  exact ext₂.wf.ne_of_clear (inv.freePage_clear hn h) ht

/-- A call frees only what clients hold exactly when its page is mapped to a held block. -/
theorem freesHeld_iff (ready : PmmReady M s₀) (h0 : 0 ∉ s₀.clear) (h : vmmFreePage s s.kernelPageMap va = .ok s') :
    FreesHeld M s held va s' ↔ ∃ tr, walk s.mem s.root va = some tr ∧ tr.page / 4096 ∈ held := by
  have hfreed : freedAddr s s.kernelPageMap va = .ok (leaf s.mem s.root va &&& addrMask) := by
    rw [← tableVirt_root] at h ⊢
    exact freedAddr_eq inv.wf h
  constructor
  · rintro ⟨howned, -, hunmapped, -⟩
    have hn : frame (leaf s.mem s.root va) / 4096 ∈ held := howned _ hfreed
    cases hw : walk s.mem s.root va with
    | some tr => exact ⟨tr, rfl, by rw [inv.wf.tree.page_eq hw]; exact hn⟩
    | none =>
      -- The entry is not present but names a held block, whose bit is cleared.
      obtain ⟨hlt, hused⟩ := inv.held_used hn
      have hbit : s.bit (frame (leaf s.mem s.root va) / 4096) = true := by
        rw [mem_clear] at hused
        simpa [hlt] using hused
      have hkept := hunmapped hw _ hlt hbit
      rw [(mem_clear.mp (inv.freePage_clear hn h)).2] at hkept
      cases hkept
  · rintro ⟨tr, hw, hn⟩
    rw [inv.wf.tree.page_eq hw] at hn
    have haddr : ∀ addr, freedAddr s s.kernelPageMap va = .ok addr →
        addr.toNat / 4096 = frame (leaf s.mem s.root va) / 4096 := fun addr hf => by
      rw [hfreed] at hf
      rw [← Except.ok.inj hf, frame]
    refine ⟨fun addr hf => ?_, fun addr hf => ?_, fun hnone => ?_, fun a ha => inv.freePage_writes hn h ha⟩
    · rw [haddr addr hf]
      exact hn
    · rw [haddr addr hf]
      exact ⟨inv.held_ne_zero h0 hn, (inv.held_used hn).1, inv.held_usable ready hn,
        fun p t ht => inv.freePage_not_table hn h ht⟩
    · rw [hw] at hnone
      cases hnone

end FrameInv

/-! ### After `vmm_init` -/

/-- The frames are accounted for when `vmm_init` returns and no client holds a block. -/
theorem startMemory_frameInv (hM : UsableOk M) (hb : b.memmap = some M) (h : startMemory b d mem = .ok s) :
    ∃ s₀, PmmReady M s₀ ∧ 0 ∉ s₀.clear ∧ FrameInv s₀ s ∅ := by
  obtain ⟨s₀, hinit, h⟩ := Loop.bind_eq_ok.mp h
  obtain ⟨s₁, hacpi, h⟩ := Loop.bind_eq_ok.mp h
  have ready := pmmInit_ready hM hb hinit
  have hready : PmmReady M { s₁ with hhdmoffset := b.hhdm } := by
    rw [initAcpi_globals hacpi]
    exact ⟨ready.memmap, ready.addr, ready.bitmap, ready.count, ready.clear⟩
  obtain ⟨t, ⟨h0, inv⟩, rfl⟩ : ∃ t, (0 ∉ ({ s₁ with hhdmoffset := b.hhdm } : State).clear ∧
      FrameInv { s₁ with hhdmoffset := b.hhdm } t ∅) ∧ s = vmmSetCtx t t.kernelPageMap := by
    refine vmmInit_inv _ (fun t ht => ?_) (fun t va pa flags t' ht hmap => ?_) h
    · obtain ⟨n, hnew⟩ := newPageMap_newMap (hready.apart hM) ht
      exact ⟨zero_not_clear_of_newPageMap (hready.apart hM) ht, hnew.frameInv⟩
    · rw [← tableVirt_root] at hmap
      exact ⟨ht.1, ht.2.extend (vmmMapPage_extends ht.2.wf hmap)⟩
  exact ⟨_, hready, h0, ⟨inv.wf.tree, inv.wf.used, inv.wf.apart, inv.wf.clearApart, inv.wf.count⟩, inv.scanned,
    inv.heldApart, inv.accounted.used, inv.accounted.initTables, inv.accounted.initHeld, inv.accounted.tablesHeld,
    inv.accounted.once⟩

end

end Neobird64
