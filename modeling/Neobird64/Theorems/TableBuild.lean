import Neobird64.Theorems.Frames
import Neobird64.Lib.OnDemand
import Mathlib.Data.Set.Finite.List

/-! The page tables as things that are built on demand from the allocator. `get_pt` requests the three
    tables on the way to a page, so a call of `vmm_map_page` or `vmm_free_page` takes the least free blocks
    for the tables that it misses, and panics exactly when there are fewer. -/

namespace Neobird64
open State Paging PathTree OnDemand

/-- The page tables below `root` are those at the paths of `T`. -/
def TablesAt (s : State) (root : Nat) (T : Finset (List (Fin 512))) : Prop := ∀ p, p ∈ T ↔ ∃ t, Table s.mem root p t

/-- The paths to the tables that `get_pt` visits below the top-level table. -/
def tablePaths (va : Word) : List (List (Fin 512)) := [[index va 39], [index va 39, index va 30], upper va]

/-- `s'` is `s` with tables built, so that its free blocks and tables are those of `st`. -/
structure Built (root : Nat) (s s' : State) (st : Stock Nat (List (Fin 512))) : Prop where
  ext : Extends root s s'
  leaf : ∀ va, leaf s'.mem root va = leaf s.mem root va
  clear : s'.clear = st.free
  tables : TablesAt s' root st.built

/-- What `get_lower_table` says when no block is free. -/
def noTableBlock : Halt := .panic "PMM failed to allocate block for the vmm"

section
variable {s s' : State} {root n t : Nat} {T : Finset (List (Fin 512))} {p : List (Fin 512)} {i : Fin 512}
variable {va va' pa flags e : Word}

/-- There are finitely many tables, as no path is longer than three. -/
theorem finite_tables (m : Memory) (root : Nat) : {p | ∃ t, Table m root p t}.Finite :=
  (List.finite_length_le (Fin 512) 3).subset fun _ ⟨_, ht⟩ => ht.1

theorem exists_tablesAt (s : State) (root : Nat) : ∃ T, TablesAt s root T :=
  ⟨(finite_tables s.mem root).toFinset, fun _ => (finite_tables s.mem root).mem_toFinset⟩

theorem TablesAt.congr (hT : TablesAt s root T) (h : ∀ p t, Table s'.mem root p t ↔ Table s.mem root p t) :
    TablesAt s' root T := fun p => (hT p).trans (exists_congr fun t => (h p t).symm)

/-- A child of a table that exists is a table exactly when the entry is present. -/
theorem TablesAt.concat_mem_iff (hT : TablesAt s root T) (hp : p.length < 3) (ht : follow (child s.mem) root p = some t) :
    p ++ [i] ∈ T ↔ present (entry s.mem t i) = true := by
  have hlen : (p ++ [i]).length ≤ 3 := by
    rw [List.length_append, List.length_singleton]
    omega
  rw [hT]
  constructor
  · rintro ⟨x, -, hx⟩
    rw [follow_concat_of_eq ht] at hx
    cases hpr : present (entry s.mem t i) with
    | true => rfl
    | false =>
      rw [child_of_not_present hpr] at hx
      cases hx
  · intro hpr
    exact ⟨_, hlen, by rw [follow_concat_of_eq ht, child_of_present hpr]⟩

/-! ### `get_lower_table` -/

theorem getLowerTable_of_empty (ht : t + 4096 ≤ 2 ^ 64) (h : present (entry s.mem t i) = false) (hempty : s.clear = ∅) :
    getLowerTable s (tableVirt s t) (BitVec.ofNat 64 i) = .error noTableBlock := by
  rw [getLowerTable, load64_entry ht, if_neg (fun hp => by simp [(and_present _).mp hp] at h)]
  simp only [pmmAllocBlock_of_empty hempty, if_pos]
  rfl

/-- It takes the least free block for a table that is missing. -/
theorem getLowerTable_of_least (hs : s.scanned ≤ 2 ^ 31) (ht : t + 4096 ≤ 2 ^ 64)
    (h : present (entry s.mem t i) = false) (h0 : 0 ∉ s.clear) (hl : FirstFit.least s.clear = some n) :
    getLowerTable s (tableVirt s t) (BitVec.ofNat 64 i) = .ok (tableVirt s (n * 4096), linkTable s n t i) := by
  have hn := (FirstFit.least_eq_some.mp hl).1
  have hlt := (mem_clear.mp hn).1
  have hn0 : blockAddr n ≠ 0 := fun h => h0 ((blockAddr_eq_zero (by omega)).mp h ▸ hn)
  have hpage : PAGE_SIZE.toNat = 4096 := rfl
  have hoff : (mmapSet s n).hhdmoffset = s.hhdmoffset := OnlyMem.mmapSet.hhdmoffset
  have hptr : tableVirt s (n * 4096) = blockAddr n + (linkTable s n t i).hhdmoffset := by
    rw [linkTable_onlyMem.hhdmoffset, tableVirt, blockAddr]
  rw [getLowerTable, load64_entry ht, if_neg (fun hp => by simp [(and_present _).mp hp] at h)]
  simp only [pmmAllocBlock_of_least hs hl, if_neg hn0, hpage, hoff]
  rw [hptr]
  rfl

/-- A table that is linked is one more table. -/
theorem TablesAt.linkTable (hT : TablesAt s root T) (wf : WellFormed s root) (hp : p.length < 3)
    (ht : follow (child s.mem) root p = some t) (hn : n ∈ s.clear) (hi : present (entry s.mem t i) = false) :
    TablesAt (linkTable s n t i) root (insert (p ++ [i]) T) := by
  intro q
  simp only [table_linkTable wf ⟨hp.le, ht⟩ hn hp hi, Finset.mem_insert, hT q]
  constructor
  · rintro (rfl | ⟨x, hx⟩)
    · exact ⟨_, Or.inl ⟨rfl, rfl⟩⟩
    · by_cases hq : q = p ++ [i]
      · exact ⟨_, Or.inl ⟨hq, rfl⟩⟩
      · exact ⟨x, Or.inr ⟨hq, hx⟩⟩
  · rintro ⟨x, ⟨rfl, -⟩ | ⟨-, hx⟩⟩
    · exact Or.inl rfl
    · exact Or.inr ⟨x, hx⟩

/-- `get_lower_table` is a request for the table below its entry. -/
theorem getLowerTable_build (wf : WellFormed s root) (h0 : 0 ∉ s.clear) (hT : TablesAt s root T) (hp : p.length < 3)
    (ht : follow (child s.mem) root p = some t) :
    (∃ st x s', build ⟨s.clear, T⟩ (p ++ [i]) = some st ∧
      getLowerTable s (tableVirt s t) (BitVec.ofNat 64 i) = .ok (tableVirt s x, s') ∧ Built root s s' st ∧
      follow (child s'.mem) root (p ++ [i]) = some x) ∨
    (build ⟨s.clear, T⟩ (p ++ [i]) = none ∧
      getLowerTable s (tableVirt s t) (BitVec.ofNat 64 i) = .error noTableBlock) := by
  have htlt := wf.table_lt ⟨hp.le, ht⟩
  have hmem := hT.concat_mem_iff (i := i) hp ht
  cases hpr : present (entry s.mem t i) with
  | true =>
    refine Or.inl ⟨⟨s.clear, T⟩, _, s, ?_, getLowerTable_of_present (by omega) hpr,
      ⟨Extends.refl wf, fun _ => rfl, rfl, hT⟩, by rw [follow_concat_of_eq ht, child_of_present hpr]⟩
    rw [build, if_pos (hmem.mpr hpr)]
  | false =>
    have hnot : p ++ [i] ∉ T := fun h => by
      rw [hmem, hpr] at h
      cases h
    cases hl : FirstFit.least s.clear with
    | none =>
      refine Or.inr ⟨?_, getLowerTable_of_empty (by omega) hpr (FirstFit.least_eq_none.mp hl)⟩
      rw [build, if_neg hnot, hl, Option.map_none]
    | some m =>
      have hm := (FirstFit.least_eq_some.mp hl).1
      have hr := getLowerTable_of_least wf.scanned_le (by omega) hpr h0 hl
      have l := linked_linkTable wf ⟨hp.le, ht⟩ hm hp hpr
      refine Or.inl ⟨⟨s.clear.erase m, insert (p ++ [i]) T⟩, _, _, ?_, hr,
        ⟨extends_linkTable wf ⟨hp.le, ht⟩ hm hp hpr, l.leaf_eq wf.tree, clear_linkTable wf ⟨hp.le, ht⟩ hm,
          hT.linkTable wf hp ht hm hpr⟩, ?_⟩
      · rw [build, if_neg hnot, hl, Option.map_some]
      · exact ((table_linkTable wf ⟨hp.le, ht⟩ hm hp hpr).mpr (Or.inl ⟨rfl, rfl⟩)).2

/-! ### `get_pt` -/

theorem Built.trans {s'' : State} {st st' : Stock Nat (List (Fin 512))} (h : Built root s s' st)
    (h' : Built root s' s'' st') : Built root s s'' st' where
  ext := h.ext.trans h'.ext
  leaf va := (h'.leaf va).trans (h.leaf va)
  clear := h'.clear
  tables := h'.tables

theorem Built.stock {st : Stock Nat (List (Fin 512))} (h : Built root s s' st) :
    st = ⟨s'.clear, st.built⟩ := by
  rw [h.clear]

/-- `get_pt` requests the three tables on the way to the page. -/
theorem getPt_build (wf : WellFormed s root) (hh : HhdmOk s) (h0 : 0 ∉ s.clear) (hT : TablesAt s root T) (va : Word) :
    (∃ st t s', buildAll ⟨s.clear, T⟩ (tablePaths va) = some st ∧
      getPt s (tableVirt s root) va = .ok (tableVirt s t, s') ∧ tableVirt s t ≠ 0 ∧ Built root s s' st ∧
      follow (child s'.mem) root (upper va) = some t) ∨
    (buildAll ⟨s.clear, T⟩ (tablePaths va) = none ∧ getPt s (tableVirt s root) va = .error noTableBlock) := by
  have next : ∀ {s₁ : State} {st₁ : Stock Nat (List (Fin 512))} {p x}, Built root s s₁ st₁ → p.length < 3 →
      follow (child s₁.mem) root p = some x → ∀ i : Fin 512,
      (∃ st₂ y s₂, build st₁ (p ++ [i]) = some st₂ ∧
        getLowerTable s₁ (tableVirt s x) (BitVec.ofNat 64 i) = .ok (tableVirt s y, s₂) ∧ tableVirt s y ≠ 0 ∧
        Built root s s₂ st₂ ∧ follow (child s₂.mem) root (p ++ [i]) = some y) ∨
      (build st₁ (p ++ [i]) = none ∧
        getLowerTable s₁ (tableVirt s x) (BitVec.ofNat 64 i) = .error noTableBlock) := by
    intro s₁ st₁ p x b₁ hp hx i
    have h := getLowerTable_build (i := i) b₁.ext.wf (fun h => h0 (b₁.ext.clear h)) b₁.tables hp hx
    rw [← b₁.stock, b₁.ext.only.tableVirt] at h
    rcases h with ⟨st₂, y, s₂, hst, hget, b₂, hy⟩ | h
    · rw [b₁.ext.only.tableVirt] at hget
      have hlen : (p ++ [i]).length ≤ 3 := by
        rw [List.length_append, List.length_singleton]
        omega
      exact Or.inl ⟨st₂, y, s₂, hst, hget, tableVirt_ne_zero hh (b₂.ext.wf.table_lt ⟨hlen, hy⟩), b₁.trans b₂, hy⟩
    · exact Or.inr h
  have start : Built root s s ⟨s.clear, T⟩ := ⟨Extends.refl wf, fun _ => rfl, rfl, hT⟩
  simp only [tablePaths, upper, buildAll_cons, buildAll_nil, getPt, index_eq]
  rcases next (p := []) start (by simp) rfl (index va 39) with ⟨st₁, t₁, s₁, h₁, g₁, n₁, b₁, f₁⟩ | ⟨h₁, g₁⟩
  · rcases next b₁ (by simp) f₁ (index va 30) with ⟨st₂, t₂, s₂, h₂, g₂, n₂, b₂, f₂⟩ | ⟨h₂, g₂⟩
    · rcases next b₂ (by simp) f₂ (index va 21) with ⟨st₃, t₃, s₃, h₃, g₃, n₃, b₃, f₃⟩ | ⟨h₃, g₃⟩
      · refine Or.inl ⟨st₃, t₃, s₃, ?_, ?_, n₃, b₃, f₃⟩
        · simp only [List.nil_append, List.cons_append] at h₁ h₂ h₃
          simp only [h₁, h₂, h₃, Option.bind_some]
        · simp only [g₁, g₂, g₃, Loop.ok_bind, if_neg n₁, if_neg n₂, if_neg n₃]
          rfl
      · refine Or.inr ⟨?_, ?_⟩
        · simp only [List.nil_append, List.cons_append] at h₁ h₂ h₃
          simp only [h₁, h₂, h₃, Option.bind_some, Option.bind_none]
        · simp only [g₁, g₂, g₃, Loop.ok_bind, if_neg n₁, if_neg n₂]
          rfl
    · refine Or.inr ⟨?_, ?_⟩
      · simp only [List.nil_append, List.cons_append] at h₁ h₂
        simp only [h₁, h₂, Option.bind_some, Option.bind_none]
      · simp only [g₁, g₂, Loop.ok_bind, if_neg n₁]
        rfl
  · refine Or.inr ⟨?_, ?_⟩
    · simp only [List.nil_append] at h₁
      simp only [h₁, Option.bind_none]
    · simp only [g₁]
      rfl

/-! ### `vmm_map_page` and `vmm_free_page` -/

theorem TablesAt.storeLeaf (hT : TablesAt s root T) (ok : TablesOk s root) (ht : follow (child s.mem) root (upper va) = some t) :
    TablesAt (storeLeaf s t va e) root T :=
  hT.congr fun _ _ => table_storeLeaf ok ht

/-- `vmm_map_page` requests the tables of its page; it panics exactly when the request fails. -/
theorem vmmMapPage_build (wf : WellFormed s root) (hh : HhdmOk s) (h0 : 0 ∉ s.clear) (hT : TablesAt s root T)
    (va pa flags : Word) :
    (∃ st s', buildAll ⟨s.clear, T⟩ (tablePaths va) = some st ∧ vmmMapPage s (tableVirt s root) va pa flags = .ok s' ∧
      s'.clear = st.free ∧ TablesAt s' root st.built) ∨
    (buildAll ⟨s.clear, T⟩ (tablePaths va) = none ∧
      vmmMapPage s (tableVirt s root) va pa flags = .error noTableBlock) := by
  simp only [vmmMapPage, index_eq]
  rcases getPt_build wf hh h0 hT va with ⟨st, t, s₁, hst, hget, hne, b, ht⟩ | ⟨hst, hget⟩
  · refine Or.inl ⟨st, storeLeaf s₁ t va (pa ||| flags), hst, ?_, ?_, b.tables.storeLeaf b.ext.wf.tablesOk ht⟩
    · simp only [hget, Loop.ok_bind, if_neg hne, storeLeaf, b.ext.only.tableVirt]
      rfl
    · rw [clear_storeLeaf b.ext.wf.tablesOk ht, b.clear]
  · refine Or.inr ⟨hst, ?_⟩
    rw [hget]
    rfl

/-- `vmm_free_page` of an entry that holds a data block requests the tables of its page, frees the block and clears
    the entry. -/
theorem vmmFreePage_build (wf : WellFormed s root) (hh : HhdmOk s) (h0 : 0 ∉ s.clear) (hT : TablesAt s root T)
    (d : DataBlock s root n) (hn : frame (leaf s.mem root va) / 4096 = n) :
    (∃ st s', buildAll ⟨s.clear, T⟩ (tablePaths va) = some st ∧ vmmFreePage s (tableVirt s root) va = .ok s' ∧
      s'.clear = insert n st.free ∧ TablesAt s' root st.built ∧
      ∀ va', leaf s'.mem root va' = if vpn va' = vpn va then 0 else leaf s.mem root va') ∨
    (buildAll ⟨s.clear, T⟩ (tablePaths va) = none ∧ vmmFreePage s (tableVirt s root) va = .error noTableBlock) := by
  have hs := wf.scanned_le
  simp only [vmmFreePage, index_eq]
  rcases getPt_build wf hh h0 hT va with ⟨st, t, s₁, hst, hget, hne, b, ht⟩ | ⟨hst, hget⟩
  · have htlt := b.ext.wf.table_lt (p := upper va) ⟨le_rfl, ht⟩
    have d₁ := d.extends b.ext
    have hload : s₁.load64 .hhdm (tableVirt s t + 8 * BitVec.ofNat 64 (index va 12)) = leaf s.mem root va := by
      rw [← b.ext.only.tableVirt, load64_entry (by omega), ← leaf_of_table ht, b.leaf]
    have hfree : pmmFreeBlock s₁ (leaf s.mem root va &&& addrMask) = mmapUnset s₁ n := by
      have hlt := d.scanned
      rw [pmmFreeBlock_eq (by rw [← frame]; omega), ← frame, hn]
    have wf₂ := b.ext.wf.free d₁
    have hsame := b.ext.wf.tables_mmapUnset d₁.scanned
    have ht₂ : follow (child (mmapUnset s₁ n).mem) root (upper va) = some t := by
      rw [follow_eq_of_tables hsame le_rfl, ht]
    have only : OnlyMem s (mmapUnset s₁ n) := b.ext.only.trans OnlyMem.mmapUnset
    refine Or.inl ⟨st, storeLeaf (mmapUnset s₁ n) t va 0, hst, ?_, ?_, ?_, fun va' => ?_⟩
    · simp only [hget, Loop.ok_bind, if_neg hne, hload]
      rw [storeLeaf, only.tableVirt, ← hfree]
      rfl
    · rw [clear_storeLeaf wf₂.tablesOk ht₂, clear_mmapUnset b.ext.wf.scanned_le d₁.scanned, b.clear]
    · exact (b.tables.congr fun _ _ => table_iff_of_tables hsame).storeLeaf wf₂.tablesOk ht₂
    · rw [leaf_storeLeaf wf₂.tablesOk ht₂, leaf_eq_of_tables hsame, b.leaf]
  · refine Or.inr ⟨hst, ?_⟩
    rw [hget]
    rfl

end

end Neobird64
