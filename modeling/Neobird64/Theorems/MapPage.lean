import Neobird64.Theorems.NewMap

/-! `vmm_map_page` writes one last-level entry of a tree of page tables: the walk of its page changes to
    what was asked for, and the walk of every other page stays. -/

namespace Neobird64
open State Paging PathTree

/-! ### Writing a last-level entry -/

/-- `s` with the last-level entry of `va`, in the table at `t`, set to `e`. -/
def storeLeaf (s : State) (t : Nat) (va e : Word) : State :=
  s.store64 .hhdm (tableVirt s t + 8 * BitVec.ofNat 64 (index va 12)) e

section
variable {s s' : State} {root n t : Nat} {e va va' pa flags : Word}

theorem storeLeaf_onlyMem : OnlyMem s (storeLeaf s t va e) := OnlyMem.store64

section
variable (ok : TablesOk s root) (ht : follow (child s.mem) root (upper va) = some t)
include ok ht

theorem mem_storeLeaf : (storeLeaf s t va e).mem = s.mem.write64 (t + 8 * index va 12) e := by
  have := ok.table_lt (p := upper va) ⟨le_rfl, ht⟩
  exact mem_store64_entry (by omega)

theorem mem_storeLeaf_of_outside {a : Nat} (ha : a < t ∨ t + 4096 ≤ a) : (storeLeaf s t va e).mem a = s.mem a := by
  have hi := (index va 12).isLt
  rw [mem_storeLeaf ok ht, Memory.write64_of_outside (by omega)]

theorem mem_storeLeaf_storage {a : Nat} (ha : s.Storage a) : (storeLeaf s t va e).mem a = s.mem a := by
  refine mem_storeLeaf_of_outside ok ht ?_
  by_contra hin
  exact ok.apart (upper va) t ⟨le_rfl, ht⟩ a (by omega) (by omega) ha

theorem bit_storeLeaf (hn : n < s.scanned) : (storeLeaf s t va e).bit n = s.bit n :=
  storeLeaf_onlyMem.bit (fun _ ha => mem_storeLeaf_storage ok ht ha) hn

theorem clear_storeLeaf : (storeLeaf s t va e).clear = s.clear :=
  storeLeaf_onlyMem.clear fun _ ha => mem_storeLeaf_storage ok ht ha

theorem table_storeLeaf {p : List (Fin 512)} {x : Nat} :
    Table (storeLeaf s t va e).mem root p x ↔ Table s.mem root p x := by
  rw [mem_storeLeaf ok ht]
  exact and_congr_right fun hp => by rw [ok.tree.follow_write rfl ht hp]

theorem leaf_storeLeaf : leaf (storeLeaf s t va e).mem root va' =
    if vpn va' = vpn va then e else leaf s.mem root va' := by
  rw [mem_storeLeaf ok ht, ok.tree.leaf_write ht]

theorem tablesOk_storeLeaf : TablesOk (storeLeaf s t va e) root where
  tree := by
    rw [mem_storeLeaf ok ht]
    exact ok.tree.write rfl ht
  used p x hx := by
    rw [table_storeLeaf ok ht] at hx
    obtain ⟨hlt, hbit⟩ := ok.used p x hx
    rw [storeLeaf_onlyMem.scanned, bit_storeLeaf ok ht hlt]
    exact ⟨hlt, hbit⟩
  apart p x hx a ha ha' := by
    rw [table_storeLeaf ok ht] at hx
    rw [storeLeaf_onlyMem.storage]
    exact ok.apart p x hx a ha ha'
  count := by
    rw [storeLeaf_onlyMem.pmmBlockCount]
    exact ok.count

end

section
variable (wf : WellFormed s root) (ht : follow (child s.mem) root (upper va) = some t)
include wf ht

theorem wellFormed_storeLeaf : WellFormed (storeLeaf s t va e) root where
  tree := by
    rw [mem_storeLeaf wf.tablesOk ht]
    exact wf.tree.write rfl ht
  used := (tablesOk_storeLeaf wf.tablesOk ht).used
  apart := (tablesOk_storeLeaf wf.tablesOk ht).apart
  clearApart k hk a ha := by
    rw [clear_storeLeaf wf.tablesOk ht] at hk
    rw [storeLeaf_onlyMem.storage]
    exact wf.clearApart k hk a ha
  count := (tablesOk_storeLeaf wf.tablesOk ht).count

theorem extends_storeLeaf : Extends root s (storeLeaf s t va e) where
  only := storeLeaf_onlyMem
  wf := wellFormed_storeLeaf wf ht
  kept p x hx := (table_storeLeaf wf.tablesOk ht).mpr hx
  clear := (clear_storeLeaf wf.tablesOk ht).le
  new p x hx := Or.inl ((table_storeLeaf wf.tablesOk ht).mp hx)
  taken k hk hk' := absurd hk (by rwa [clear_storeLeaf wf.tablesOk ht] at hk')
  changed a ha := by
    refine Or.inr ⟨upper va, t, (table_storeLeaf wf.tablesOk ht).mpr ⟨le_rfl, ht⟩, ?_⟩
    by_contra hin
    exact ha (mem_storeLeaf_of_outside wf.tablesOk ht (by omega))

end

/-! ### `vmm_map_page` -/

/-- `vmm_map_page` extends the tree as `get_pt` does, and writes one entry. -/
theorem vmmMapPage_eq (wf : WellFormed s root) (h : vmmMapPage s (tableVirt s root) va pa flags = .ok s') :
    ∃ t s₁, Extends root s s₁ ∧ (∀ va, leaf s₁.mem root va = leaf s.mem root va) ∧
      follow (child s₁.mem) root (upper va) = some t ∧ s' = storeLeaf s₁ t va (pa ||| flags) := by
  simp only [vmmMapPage, index_eq] at h
  obtain ⟨⟨q, s₁⟩, h₁, h⟩ := Loop.bind_eq_ok.mp h
  dsimp only at h
  split at h
  · cases h
  · rename_i hq
    obtain ⟨t, rfl, e, hl, ht⟩ := getPt_extends wf h₁ hq
    cases h
    refine ⟨t, s₁, e, hl, ht, ?_⟩
    rw [storeLeaf, e.only.tableVirt]

theorem vmmMapPage_extends (wf : WellFormed s root) (h : vmmMapPage s (tableVirt s root) va pa flags = .ok s') :
    Extends root s s' := by
  obtain ⟨t, s₁, e, -, ht, rfl⟩ := vmmMapPage_eq wf h
  exact e.trans (extends_storeLeaf e.wf ht)

theorem vmmMapPage_leaf (wf : WellFormed s root) (h : vmmMapPage s (tableVirt s root) va pa flags = .ok s') :
    leaf s'.mem root va' = if vpn va' = vpn va then pa ||| flags else leaf s.mem root va' := by
  obtain ⟨t, s₁, e, hl, ht, rfl⟩ := vmmMapPage_eq wf h
  rw [leaf_storeLeaf e.wf.tablesOk ht, hl]

theorem vmmMapPage_ok (va pa flags : Word) (wf : WellFormed s root) (hh : HhdmOk s) (h0 : 0 ∉ s.clear) (hcard : 3 ≤ s.clear.card) :
    ∃ s', vmmMapPage s (tableVirt s root) va pa flags = .ok s' ∧ s.clear.card ≤ s'.clear.card + 3 := by
  obtain ⟨t, s₁, h₁, hne, hc⟩ := getPt_ok va wf hh h0 hcard
  obtain ⟨t', ht', e, -, ht⟩ := getPt_extends wf h₁ hne
  rw [ht'] at h₁ hne
  refine ⟨storeLeaf s₁ t' va (pa ||| flags), ?_, by rw [clear_storeLeaf e.wf.tablesOk ht]; exact hc⟩
  simp only [vmmMapPage, index_eq, h₁, Loop.ok_bind, if_neg hne, storeLeaf, e.only.tableVirt]
  rfl

theorem vmmMapPage_ok_of_table (pa flags : Word) (wf : WellFormed s root) (hh : HhdmOk s)
    (ht : follow (child s.mem) root (upper va) = some t) :
    ∃ s', vmmMapPage s (tableVirt s root) va pa flags = .ok s' ∧ s'.clear = s.clear := by
  have htlt := wf.table_lt (p := upper va) ⟨le_rfl, ht⟩
  refine ⟨storeLeaf s t va (pa ||| flags), ?_, clear_storeLeaf wf.tablesOk ht⟩
  simp only [vmmMapPage, index_eq, getPt_of_table wf hh ht, Loop.ok_bind, if_neg (tableVirt_ne_zero hh htlt),
    storeLeaf]
  rfl

/-! ### The walk after `vmm_map_page` -/

/-- All `PTE_BIT_*` constants together. -/
def pteMask : Word :=
  PTE_BIT_PRESENT ||| PTE_BIT_READ_WRITE ||| PTE_BIT_ACCESS_ALL ||| PTE_BIT_WRITE_THROUGH_CACHING |||
    PTE_BIT_DISABLE_CACHING ||| PTE_BIT_PDE_OR_PTE_ACCESSED ||| PTE_BIT_DIRTY ||| PTE_BIT_PAT_SUPPORTED |||
    PTE_BIT_GLOBAL ||| PTE_BIT_EXECUTE_DISABLE

theorem flags_and_addrMask (h : flags &&& ~~~pteMask = 0) : flags &&& addrMask = 0 := by
  have hmask : addrMask = ~~~pteMask &&& addrMask := by decide
  rw [hmask, ← BitVec.and_assoc, h]
  exact BitVec.zero_and

/-- The translation of a page at `pa` with exactly the rights in `flags`. -/
def pageWith (pa flags : Word) : Translation where
  page := pa.toNat
  writable := writable flags
  user := user flags
  noExec := noExec flags
  leaf := pa ||| flags

theorem walk_of_leaf (wf : WellFormed s root) (hleaf : leaf s.mem root va = pa ||| flags) (hpa : pa.toNat < 2 ^ 52)
    (hal : pa.toNat % 4096 = 0) (hflags : flags &&& addrMask = 0) (hpresent : present flags = true) :
    walk s.mem root va = some (pageWith pa flags) := by
  have hframe : frame (pa ||| flags) = pa.toNat := by
    rw [frame_or hpa hflags]
    omega
  have hpres : present (pa ||| flags) = true := by rwa [present, getLsbD_or hpa hal (by omega)]
  rw [wf.tree.walk, hleaf, if_pos hpres, pageWith, hframe, writable, user, noExec, getLsbD_or hpa hal (by omega),
    getLsbD_or hpa hal (by omega), getLsbD_or hpa hal (by omega)]
  rfl

/-- `vmm_map_page` makes the page of `va` translate to `pa` with the rights in `flags`, leaves every
    other page as it was, writes to the bitmap and to page tables only, and keeps the page map well
    formed. -/
theorem vmmMapPage_walk (wf : WellFormed s root) (hpa : pa.toNat < 2 ^ 52) (hal : pa.toNat % 4096 = 0)
    (hflags : flags &&& ~~~pteMask = 0) (hpresent : flags &&& PTE_BIT_PRESENT ≠ 0)
    (h : vmmMapPage s (tableVirt s root) va pa flags = .ok s') :
    (∀ va', vpn va' = vpn va → walk s'.mem root va' = some (pageWith pa flags)) ∧
    (∀ va', vpn va' ≠ vpn va → walk s'.mem root va' = walk s.mem root va') ∧
    (∀ a, s'.mem a ≠ s.mem a → s.Storage a ∨ ∃ p t, Table s'.mem root p t ∧ t ≤ a ∧ a < t + 4096) ∧
    WellFormed s' root := by
  have e := vmmMapPage_extends wf h
  refine ⟨fun va' hv => ?_, fun va' hv => ?_, e.changed, e.wf⟩
  · exact walk_of_leaf e.wf (by rw [vmmMapPage_leaf wf h, if_pos hv]) hpa hal (flags_and_addrMask hflags)
      ((and_present flags).mp hpresent)
  · rw [e.wf.tree.walk, wf.tree.walk, vmmMapPage_leaf wf h, if_neg hv]

end

/-- The first page that is mapped on a machine with 64 MiB. -/
theorem vmmMapPage_walk_sample : ∃ s s' root, WellFormed s root ∧
    vmmMapPage s (tableVirt s root) 0x400000 0x200000 (PTE_BIT_PRESENT ||| PTE_BIT_READ_WRITE) = .ok s' ∧
    walk s'.mem root 0x400000 = some (pageWith 0x200000 (PTE_BIT_PRESENT ||| PTE_BIT_READ_WRITE)) := by
  obtain ⟨_, s, n, -, -, hmap, hh, h0, hcard⟩ := newMap_sample fun _ => 0
  obtain ⟨s', h, -⟩ := vmmMapPage_ok 0x400000 0x200000 (PTE_BIT_PRESENT ||| PTE_BIT_READ_WRITE)
    hmap.wf hh h0 (by omega)
  exact ⟨s, s', n * 4096, hmap.wf, h,
    (vmmMapPage_walk hmap.wf (by decide) (by decide) (by decide) (by decide) h).1 _ rfl⟩

end Neobird64
