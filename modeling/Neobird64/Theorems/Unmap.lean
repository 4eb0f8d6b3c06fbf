import Neobird64.Theorems.FreePage

/-! What `vmm_free_page` does to a page that is mapped. All its tables exist, so it builds none: it clears
    the bit of the frame and the entry of the page, and the page can be mapped again at no cost. -/

namespace Neobird64
open State Paging PathTree

/-- The page map at `root` has the same tables in `s'`, and the bitmap the same bits. -/
structure SameTables (s s' : State) (root : Nat) : Prop where
  bits : ∀ n < s.scanned, s'.bit n = s.bit n
  tables : ∀ p t, Table s'.mem root p t ↔ Table s.mem root p t

/-- `s'` is `s` with the page of `va`, which was mapped to the frame at `f`, unmapped and its frame freed. -/
structure Unmapped (s s' : State) (root : Nat) (va : Word) (f : Nat) : Prop where
  page : ∀ va', vpn va' = vpn va → walk s'.mem root va' = none
  others : ∀ va', vpn va' ≠ vpn va → walk s'.mem root va' = walk s.mem root va'
  freed : s'.bit (f / 4096) = false
  bits : ∀ n < s.scanned, n ≠ f / 4096 → s'.bit n = s.bit n
  tables : ∀ p t, Table s'.mem root p t ↔ Table s.mem root p t
  /-- Mapping the page again builds no table. -/
  remap : ∀ pa flags s'', vmmMapPage s' (tableVirt s' root) va pa flags = .ok s'' → SameTables s' s'' root

section
variable {s s' : State} {root n t : Nat} {va va' pa flags e : Word} {tr : Translation}

/-! ### A walk after a last-level write -/

section
variable (ok : TablesOk s root) (ht : follow (child s.mem) root (upper va) = some t)
include ok ht

theorem walk_storeLeaf_of_ne (hv : vpn va' ≠ vpn va) : walk (storeLeaf s t va e).mem root va' = walk s.mem root va' := by
  have hlen : (upper va).length = 3 := rfl
  have hleaf : leaf (storeLeaf s t va e).mem root va' = _ := leaf_storeLeaf ok ht
  rw [mem_storeLeaf ok ht] at hleaf ⊢
  rw [if_neg hv] at hleaf
  refine walk_congr (fun q x j hq hx => ok.tree.entry_write_upper hlen ht hq hx) fun x hx => ?_
  rwa [leaf_of_table hx, leaf_of_table ((ok.tree.follow_write hlen ht le_rfl).trans hx)] at hleaf

theorem walk_storeLeaf_zero (hv : vpn va' = vpn va) : walk (storeLeaf s t va 0).mem root va' = none := by
  cases hw : walk (storeLeaf s t va 0).mem root va' with
  | none => rfl
  | some tr =>
    have hpr := (walk_eq_some hw).2.1
    rw [leaf_storeLeaf ok ht, if_pos hv] at hpr
    cases hpr

theorem sameTables_storeLeaf : SameTables s (storeLeaf s t va e) root where
  bits _ hn := bit_storeLeaf ok ht hn
  tables _ _ := table_storeLeaf ok ht

/-! ### The functions when the page table exists -/

theorem vmmMapPage_of_table (h : vmmMapPage s (tableVirt s root) va pa flags = .ok s') :
    s' = storeLeaf s t va (pa ||| flags) := by
  obtain ⟨q, hq, heq, -⟩ := getPt_read ok ht
  simp only [vmmMapPage, index_eq, hq, Loop.ok_bind] at h
  split at h
  · cases h
  · rename_i hne
    cases h
    rw [heq hne]
    rfl

theorem vmmFreePage_of_table (h : vmmFreePage s (tableVirt s root) va = .ok s') :
    s' = storeLeaf (pmmFreeBlock s (leaf s.mem root va &&& addrMask)) t va 0 := by
  have htlt := ok.table_lt (p := upper va) ⟨le_rfl, ht⟩
  obtain ⟨q, hq, heq, -⟩ := getPt_read ok ht
  simp only [vmmFreePage, index_eq, hq, Loop.ok_bind] at h
  split at h
  · cases h
  · rename_i hne
    rw [heq hne, load64_entry (by omega), ← leaf_of_table ht] at h
    cases h
    rfl

theorem vmmMapPage_returns (hptr : ∀ p x, Table s.mem root p x → tableVirt s x ≠ 0) :
    ∃ s', vmmMapPage s (tableVirt s root) va pa flags = .ok s' := by
  obtain ⟨q, hq, -, hne⟩ := getPt_read ok ht
  simp only [vmmMapPage, index_eq, hq, Loop.ok_bind, if_neg (hne hptr)]
  exact ⟨_, rfl⟩

theorem vmmFreePage_returns (hptr : ∀ p x, Table s.mem root p x → tableVirt s x ≠ 0) :
    ∃ s', vmmFreePage s (tableVirt s root) va = .ok s' := by
  obtain ⟨q, hq, -, hne⟩ := getPt_read ok ht
  simp only [vmmFreePage, index_eq, hq, Loop.ok_bind, if_neg (hne hptr)]
  exact ⟨_, rfl⟩

end

/-! ### Clearing the bit of a frame that is no table -/

section
variable (ok : TablesOk s root) (hn : n < s.scanned) (htable : ∀ p t, Table s.mem root p t → t / 4096 ≠ n)
include ok hn

/-- Only a byte of the bitmap is written, which is in no table. -/
theorem TablesOk.mem_mmapUnset (p : List (Fin 512)) (t a : Nat) (ht : Table s.mem root p t) (hlo : t ≤ a)
    (hhi : a < t + 4096) : (mmapUnset s n).mem a = s.mem a :=
  mem_mmapUnset_of_not_storage hn (ok.apart p t ht a hlo hhi)

theorem TablesOk.walk_mmapUnset : walk (mmapUnset s n).mem root va = walk s.mem root va :=
  walk_congr (fun q x _ hq hx => entry_congr fun a => ok.mem_mmapUnset hn q x a ⟨hq.le, hx⟩)
    fun x hx => entry_congr fun a => ok.mem_mmapUnset hn (upper va) x a ⟨le_rfl, hx⟩

theorem TablesOk.table_mmapUnset {p : List (Fin 512)} {x : Nat} :
    Table (mmapUnset s n).mem root p x ↔ Table s.mem root p x :=
  table_iff_of_tables (ok.mem_mmapUnset hn)

include htable

theorem TablesOk.free : TablesOk (mmapUnset s n) root where
  tree := by
    refine ⟨ok.tree.aligned, fun p q x hp hq hpx hqx => ?_⟩
    rw [follow_eq_of_tables (ok.mem_mmapUnset hn) hp] at hpx
    rw [follow_eq_of_tables (ok.mem_mmapUnset hn) hq] at hqx
    exact ok.tree.unique p q x hp hq hpx hqx
  used p t ht := by
    rw [ok.table_mmapUnset hn] at ht
    obtain ⟨hlt, hbit⟩ := ok.used p t ht
    have hs := ok.scanned_le
    rw [OnlyMem.mmapUnset.scanned, bit_mmapUnset (by omega) (by omega), hbit]
    exact ⟨hlt, by simp [htable p t ht]⟩
  apart p t ht := by
    rw [ok.table_mmapUnset hn] at ht
    exact ok.apart p t ht
  count := ok.count

end

/-- `vmm_free_page` of a page that is mapped to a frame of the bitmap, which is no table, unmaps the page, frees
    the frame and changes nothing else; it returns when no table has a NULL pointer, and so does
    `vmm_map_page` of the page afterwards. -/
theorem vmmFreePage_unmapped (ok : TablesOk s root) (hw : walk s.mem root va = some tr)
    (hlt : tr.page / 4096 < s.scanned) (htable : ∀ p t, Table s.mem root p t → t ≠ tr.page) :
    (∀ s', vmmFreePage s (tableVirt s root) va = .ok s' → Unmapped s s' root va tr.page) ∧
    ((∀ p t, Table s.mem root p t → tableVirt s t ≠ 0) → ∃ s', vmmFreePage s (tableVirt s root) va = .ok s' ∧
      ∀ pa flags, ∃ s'', vmmMapPage s' (tableVirt s' root) va pa flags = .ok s'') := by
  obtain ⟨⟨t, ht⟩, -, hpage⟩ := walk_eq_some hw
  have hs := ok.scanned_le
  have hmod : tr.page % 4096 = 0 := by
    rw [hpage]
    exact frame_mod _
  have htable' : ∀ p t, Table s.mem root p t → t / 4096 ≠ tr.page / 4096 := fun p t hx hdiv => by
    have := ok.table_mod hx
    exact htable p t hx (by omega)
  have hfree : pmmFreeBlock s (leaf s.mem root va &&& addrMask) = mmapUnset s (tr.page / 4096 : Nat) := by
    rw [pmmFreeBlock_eq (by rw [← frame, ← hpage]; omega), ← frame, ← hpage]
  have ok₁ := ok.free hlt htable'
  have ht₁ : follow (child (mmapUnset s (tr.page / 4096 : Nat)).mem) root (upper va) = some t :=
    ((ok.table_mmapUnset hlt).mpr ⟨le_rfl, ht⟩).2
  have hbit : ∀ k < s.scanned, (mmapUnset s (tr.page / 4096 : Nat)).bit k = (!decide (k = tr.page / 4096) && s.bit k) :=
    fun k hk => bit_mmapUnset (by omega) (by omega)
  have result : ∀ s', vmmFreePage s (tableVirt s root) va = .ok s' →
      s' = storeLeaf (mmapUnset s (tr.page / 4096 : Nat)) t va 0 := fun s' h => by
    rw [vmmFreePage_of_table ok ht h, hfree]
  refine ⟨fun s' h => ?_, fun hptr => ?_⟩
  · obtain rfl := result s' h
    have ok₂ := tablesOk_storeLeaf (e := 0) ok₁ ht₁
    have ht₂ : follow (child (storeLeaf (mmapUnset s (tr.page / 4096 : Nat)) t va 0).mem) root (upper va) = some t :=
      ((table_storeLeaf ok₁ ht₁).mpr ⟨le_rfl, ht₁⟩).2
    refine ⟨fun va' hv => walk_storeLeaf_zero ok₁ ht₁ hv, fun va' hv => ?_, ?_, fun k hk hne => ?_, fun p x => ?_,
      fun pa flags s'' h'' => ?_⟩
    · rw [walk_storeLeaf_of_ne ok₁ ht₁ hv, ok.walk_mmapUnset hlt]
    · rw [bit_storeLeaf ok₁ ht₁ hlt, hbit _ hlt]
      simp
    · rw [bit_storeLeaf ok₁ ht₁ hk, hbit k hk]
      simp [hne]
    · rw [table_storeLeaf ok₁ ht₁, ok.table_mmapUnset hlt]
    · rw [vmmMapPage_of_table ok₂ ht₂ h'']
      exact sameTables_storeLeaf ok₂ ht₂
  · obtain ⟨s', h⟩ := vmmFreePage_returns ok ht hptr
    obtain rfl := result s' h
    refine ⟨_, h, fun pa flags => vmmMapPage_returns (tablesOk_storeLeaf ok₁ ht₁)
      ((table_storeLeaf ok₁ ht₁).mpr ⟨le_rfl, ht₁⟩).2 fun p x hx => ?_⟩
    rw [table_storeLeaf ok₁ ht₁, ok.table_mmapUnset hlt] at hx
    rw [storeLeaf_onlyMem.tableVirt, OnlyMem.mmapUnset.tableVirt]
    exact hptr p x hx

end

/-- A client takes a block and has it mapped; `vmm_free_page` of the page unmaps it. -/
theorem vmmFreePage_unmapped_sample : ∃ s₁ s s' held va tr, startMemory (sampleBoot acpiMap) acpiDevices acpiMemory = .ok s₁ ∧
    FrameRun s₁ s held ∧ walk s.mem s.root va = some tr ∧
    vmmFreePage s (tableVirt s s.root) va = .ok s' ∧ Unmapped s s' s.root va tr.page := by
  obtain ⟨s₀, s₁, s₂, hm⟩ := startMemory_acpiMap
  obtain ⟨t₀, -, h0, inv⟩ := startMemory_frameInv acpiMap_like.ok rfl hm.start
  obtain ⟨n, s, hrun, hlt, hh, hleaf⟩ := inv.exists_run h0 hm.hhdmOk hm.blocks 0xffff900000000000
  have inv' := FrameRun.inv h0 inv hrun
  have haddr := blockAddr_toNat (n := n) (by omega)
  have hwalk := walk_of_leaf inv'.wf hleaf (by omega) (by omega) (by decide) (by decide)
  have d : DataBlock s s.root n := inv'.dataBlock (Finset.mem_singleton_self n)
  have hpage := inv'.wf.tree.page_eq hwalk
  rw [hleaf, frame_or (by omega) (by decide), haddr] at hpage
  have hspec := vmmFreePage_unmapped inv'.wf.tablesOk hwalk (by rw [hpage]; have := d.scanned; omega)
    fun p t ht hne => d.noTable p t ht (by rw [hne, hpage]; omega)
  obtain ⟨s', h, -⟩ := hspec.2 fun p t ht => tableVirt_ne_zero hh (inv'.wf.table_lt ht)
  exact ⟨s₂, s, s', _, _, _, hm.start, hrun, hwalk, h, hspec.1 s' h⟩

end Neobird64
