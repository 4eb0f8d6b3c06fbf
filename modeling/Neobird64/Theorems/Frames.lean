import Neobird64.Theorems.MapPage
import Mathlib.Order.CompletePartialOrder

/-! Where the frames of memory are. Clients allocate and free blocks and write to their own, and map and
    free pages; through every such run the used frames are those used at the start, the page tables and
    the blocks of the clients, each counted once. -/

namespace Neobird64
open State Paging PathTree

/-- The used bits of the scanned range. -/
def usedBlocks (s : State) : Set Nat := {n | n < s.scanned ∧ s.bit n = true}

/-- The blocks of the top-level table and of the tables below it. -/
def tableBlocks (s : State) : Set Nat := {n | ∃ p, Table s.mem s.root p (n * 4096)}

/-- The used frames of `s` are those of `s₀`, the page tables and the blocks `held` by clients; nothing is
    counted twice, and each table is reached by one path. -/
structure FramesAccounted (s₀ s : State) (held : Finset Nat) : Prop where
  used : usedBlocks s = usedBlocks s₀ ∪ tableBlocks s ∪ ↑held
  initTables : Disjoint (usedBlocks s₀) (tableBlocks s)
  initHeld : Disjoint (usedBlocks s₀) ↑held
  tablesHeld : Disjoint (tableBlocks s) ↑held
  once : ∀ p q t, Table s.mem s.root p t → Table s.mem s.root q t → p = q

/-- A step of the kernel or of a client, with the blocks that clients hold before and after. -/
inductive FrameStep : State → Finset Nat → State → Finset Nat → Prop
  | alloc {s : State} {held : Finset Nat} (h : (pmmAllocBlock s).1 ≠ 0) :
      FrameStep s held (pmmAllocBlock s).2 (insert ((pmmAllocBlock s).1.toNat / 4096) held)
  | noBlock {s : State} {held : Finset Nat} (h : (pmmAllocBlock s).1 = 0) : FrameStep s held (pmmAllocBlock s).2 held
  | free {s : State} {held : Finset Nat} {addr : Word} (h : addr.toNat / 4096 ∈ held) :
      FrameStep s held (pmmFreeBlock s addr) (held.erase (addr.toNat / 4096))
  | map {s s' : State} {held : Finset Nat} {va pa flags : Word}
      (h : vmmMapPage s s.kernelPageMap va pa flags = .ok s') : FrameStep s held s' held
  | freePage {s s' : State} {held : Finset Nat} {va : Word} {tr : Translation} (hw : walk s.mem s.root va = some tr)
      (hn : tr.page / 4096 ∈ held) (h : vmmFreePage s s.kernelPageMap va = .ok s') :
      FrameStep s held s' (held.erase (tr.page / 4096))
  | write {s : State} {held : Finset Nat} {a : Nat} {b : BitVec 8} (h : a / 4096 ∈ held) :
      FrameStep s held { s with mem := s.mem.set a b } held

/-- Any finite sequence of steps from `s₁`, where no block is held. -/
inductive FrameRun (s₁ : State) : State → Finset Nat → Prop
  | start : FrameRun s₁ s₁ ∅
  | step {s s' : State} {held held' : Finset Nat} (h : FrameRun s₁ s held) (hs : FrameStep s held s' held') :
      FrameRun s₁ s' held'

/-! ### Frames under a change of memory -/

section
variable {s₀ s s' : State} {held : Finset Nat} {root n t : Nat} {va e : Word}

theorem mem_usedBlocks : n ∈ usedBlocks s ↔ n < s.scanned ∧ n ∉ s.clear := by
  rw [mem_clear]
  change n < s.scanned ∧ s.bit n = true ↔ _
  cases s.bit n <;> simp

/-- A page map stays well formed when its tables and the bits of its tables are kept. -/
theorem WellFormed.congr (wf : WellFormed s root) (only : OnlyMem s s')
    (hm : ∀ p t a, Table s.mem root p t → t ≤ a → a < t + 4096 → s'.mem a = s.mem a)
    (hbit : ∀ p t, Table s.mem root p t → s'.bit (t / 4096) = true)
    (hclear : ∀ n ∈ s'.clear, ∀ a, a / 4096 = n → ¬s.Storage a) : WellFormed s' root where
  tree := wf.tree.congr hm
  used p t ht := by
    rw [table_iff_of_tables hm] at ht
    rw [only.scanned]
    exact ⟨(wf.used p t ht).1, hbit p t ht⟩
  apart p t ht a hlo hhi := by
    rw [table_iff_of_tables hm] at ht
    rw [only.storage]
    exact wf.apart p t ht a hlo hhi
  clearApart k hk a ha := by
    rw [only.storage]
    exact hclear k hk a ha
  count := by
    rw [only.pmmBlockCount]
    exact wf.count

/-- The last-level entries do not change when no table does. -/
theorem leaf_eq_of_tables (hm : ∀ p t a, Table s.mem root p t → t ≤ a → a < t + 4096 → s'.mem a = s.mem a) :
    leaf s'.mem root va = leaf s.mem root va := by
  have hfollow : follow (child s'.mem) root (upper va) = follow (child s.mem) root (upper va) :=
    follow_eq_of_tables hm le_rfl
  cases ht : follow (child s.mem) root (upper va) with
  | none => rw [leaf_of_none (hfollow.trans ht), leaf_of_none ht]
  | some t => rw [leaf_of_table (hfollow.trans ht), leaf_of_table ht, entry_congr fun a => hm _ t a ⟨le_rfl, ht⟩]

/-- Changing bytes of the bitmap keeps the tables. -/
theorem WellFormed.tables_mmapSet (wf : WellFormed s root) (hn : n < s.scanned) (p : List (Fin 512)) (t a : Nat)
    (ht : Table s.mem root p t) (hlo : t ≤ a) (hhi : a < t + 4096) : (mmapSet s n).mem a = s.mem a :=
  mem_mmapSet_of_not_storage hn (wf.apart p t ht a hlo hhi)

theorem WellFormed.tables_mmapUnset (wf : WellFormed s root) (hn : n < s.scanned) (p : List (Fin 512)) (t a : Nat)
    (ht : Table s.mem root p t) (hlo : t ≤ a) (hhi : a < t + 4096) : (mmapUnset s n).mem a = s.mem a :=
  mem_mmapUnset_of_not_storage hn (wf.apart p t ht a hlo hhi)

theorem WellFormed.mmapSet (wf : WellFormed s root) (hn : n ∈ s.clear) : WellFormed (mmapSet s n) root := by
  have hlt := (mem_clear.mp hn).1
  have hs := wf.scanned_le
  refine wf.congr OnlyMem.mmapSet (wf.tables_mmapSet hlt) (fun p t ht => ?_) fun k hk a ha => ?_
  · obtain ⟨ht', hbit⟩ := wf.used p t ht
    rw [bit_mmapSet (by omega) (by omega), hbit, Bool.or_true]
  · rw [clear_mmapSet hs (by omega)] at hk
    exact wf.clearApart k (Finset.mem_of_mem_erase hk) a ha

theorem WellFormed.mmapUnset (wf : WellFormed s root) (hn : n < s.scanned)
    (htables : ∀ p t, Table s.mem root p t → t / 4096 ≠ n) (happart : ∀ a, a / 4096 = n → ¬s.Storage a) :
    WellFormed (mmapUnset s n) root := by
  have hs := wf.scanned_le
  refine wf.congr OnlyMem.mmapUnset (wf.tables_mmapUnset hn) (fun p t ht => ?_) fun k hk a ha => ?_
  · obtain ⟨ht', hbit⟩ := wf.used p t ht
    rw [bit_mmapUnset (by omega) (by omega), hbit]
    simp [htables p t ht]
  · rw [clear_mmapUnset hs hn, Finset.mem_insert] at hk
    rcases hk with rfl | hk
    · exact happart a ha
    · exact wf.clearApart k hk a ha

/-- A used block that is neither a page table nor part of the bitmap. -/
structure DataBlock (s : State) (root n : Nat) : Prop where
  scanned : n < s.scanned
  used : s.bit n = true
  noTable : ∀ p t, Table s.mem root p t → t / 4096 ≠ n
  apart : ∀ a, a / 4096 = n → ¬s.Storage a

theorem WellFormed.free (wf : WellFormed s root) (d : DataBlock s root n) : WellFormed (Neobird64.mmapUnset s n) root :=
  wf.mmapUnset d.scanned d.noTable d.apart

/-- New tables are taken from the clear blocks only. -/
theorem DataBlock.extends (d : DataBlock s root n) (e : Extends root s s') : DataBlock s' root n where
  scanned := by
    rw [e.only.scanned]
    exact d.scanned
  used := by
    cases hbit : s'.bit n with
    | true => rfl
    | false =>
      have hmem := e.clear (mem_clear.mpr ⟨by rw [e.only.scanned]; exact d.scanned, hbit⟩)
      rw [← (mem_clear.mp hmem).2, d.used]
  noTable p t ht := by
    rcases e.new p t ht with ht | ⟨hc, -⟩
    · exact d.noTable p t ht
    · rintro rfl
      exact absurd (mem_clear.mp hc).2 (by simp [d.used])
  apart a ha := by
    rw [e.only.storage]
    exact d.apart a ha

theorem tableBlocks_congr (only : OnlyMem s s')
    (hm : ∀ p t a, Table s.mem s.root p t → t ≤ a → a < t + 4096 → s'.mem a = s.mem a) :
    tableBlocks s' = tableBlocks s := by
  ext n
  exact exists_congr fun p => by rw [only.root, table_iff_of_tables hm]

/-! ### `vmm_free_page` -/

/-- `vmm_free_page` extends the tree as `get_pt` does, frees the block that the entry of `va` holds and
    clears the entry. -/
theorem vmmFreePage_eq (wf : WellFormed s root) (h : vmmFreePage s (tableVirt s root) va = .ok s') :
    ∃ t s₁, Extends root s s₁ ∧ (∀ va, leaf s₁.mem root va = leaf s.mem root va) ∧
      follow (child s₁.mem) root (upper va) = some t ∧
      s' = storeLeaf (pmmFreeBlock s₁ (leaf s.mem root va &&& addrMask)) t va 0 := by
  simp only [vmmFreePage, index_eq] at h
  obtain ⟨⟨q, s₁⟩, h₁, h⟩ := Loop.bind_eq_ok.mp h
  dsimp only at h
  split at h
  · cases h
  · rename_i hq
    obtain ⟨t, rfl, ext, hl, ht⟩ := getPt_extends wf h₁ hq
    have htlt := ext.wf.table_lt (p := upper va) ⟨le_rfl, ht⟩
    have hload : s₁.load64 .hhdm (tableVirt s t + 8 * BitVec.ofNat 64 (index va 12)) = leaf s.mem root va := by
      rw [← ext.only.tableVirt, load64_entry (by omega), ← leaf_of_table ht, hl]
    rw [hload] at h
    cases h
    refine ⟨t, s₁, ext, hl, ht, ?_⟩
    have only : OnlyMem s (pmmFreeBlock s₁ (leaf s.mem root va &&& addrMask)) := ext.only.trans OnlyMem.mmapUnset
    rw [storeLeaf, only.tableVirt]
    rfl

/-- `vmm_free_page` of an entry that holds a data block, step by step: `get_pt` extends the tree, the bit
    of the block is cleared, and the entry is cleared. -/
theorem vmmFreePage_steps (wf : WellFormed s root) (d : DataBlock s root n) (hn : frame (leaf s.mem root va) / 4096 = n)
    (h : vmmFreePage s (tableVirt s root) va = .ok s') :
    ∃ s₁, Extends root s s₁ ∧ DataBlock s₁ root n ∧ WellFormed (mmapUnset s₁ n) root ∧
      Extends root (mmapUnset s₁ n) s' ∧ s'.clear = (mmapUnset s₁ n).clear := by
  have hs := wf.scanned_le
  have hlt := d.scanned
  obtain ⟨t, s₁, ext, -, ht, rfl⟩ := vmmFreePage_eq wf h
  have d₁ := d.extends ext
  have hfree : pmmFreeBlock s₁ (leaf s.mem root va &&& addrMask) = mmapUnset s₁ n := by
    rw [pmmFreeBlock_eq (by rw [← frame]; omega), ← frame, hn]
  have ht₂ : follow (child (mmapUnset s₁ n).mem) root (upper va) = some t := by
    rw [follow_eq_of_tables (ext.wf.tables_mmapUnset d₁.scanned) le_rfl, ht]
  have wf₂ := ext.wf.free d₁
  rw [hfree]
  exact ⟨s₁, ext, d₁, wf₂, extends_storeLeaf wf₂ ht₂, clear_storeLeaf wf₂.tablesOk ht₂⟩

end

/-! ### The invariant -/

/-- What holds in every run, `s₀` being the state before the page map was allocated. -/
structure FrameInv (s₀ s : State) (held : Finset Nat) : Prop where
  wf : WellFormed s s.root
  scanned : s.scanned = s₀.scanned
  heldApart : ∀ n ∈ held, ∀ a, a / 4096 = n → ¬s.Storage a
  accounted : FramesAccounted s₀ s held

namespace FrameInv
variable {s₀ s s' : State} {held held' : Finset Nat} {n : Nat} (inv : FrameInv s₀ s held)
include inv

theorem held_used (hn : n ∈ held) : n < s.scanned ∧ n ∉ s.clear := by
  rw [← mem_usedBlocks, inv.accounted.used]
  exact Or.inr hn

theorem init_used (hn : n ∈ usedBlocks s₀) : n ∈ usedBlocks s := by
  rw [inv.accounted.used]
  exact Or.inl (Or.inl hn)

theorem held_ne_zero (h0 : 0 ∉ s₀.clear) (hn : n ∈ held) : n ≠ 0 := by
  rintro rfl
  have hlt := (inv.held_used hn).1
  rw [inv.scanned] at hlt
  exact Set.disjoint_left.mp inv.accounted.initHeld (mem_usedBlocks.mpr ⟨hlt, h0⟩) hn

theorem clear_ne_zero (h0 : 0 ∉ s₀.clear) : 0 ∉ s.clear := fun hmem => by
  have hlt := (mem_clear.mp hmem).1
  rw [inv.scanned] at hlt
  exact (mem_usedBlocks.mp (inv.init_used (mem_usedBlocks.mpr ⟨hlt, h0⟩))).2 hmem

theorem clear_cases (hn : n ∈ s.clear) : n ∉ usedBlocks s₀ ∧ n ∉ tableBlocks s ∧ n ∉ held := by
  have hfree : n ∉ usedBlocks s := fun hu => (mem_usedBlocks.mp hu).2 hn
  rw [inv.accounted.used] at hfree
  exact ⟨fun h => hfree (Or.inl (Or.inl h)), fun h => hfree (Or.inl (Or.inr h)), fun h => hfree (Or.inr h)⟩

theorem held_not_table (hn : n ∈ held) {p : List (Fin 512)} {t : Nat} (ht : Table s.mem s.root p t) :
    t / 4096 ≠ n := by
  rintro rfl
  have hmod := inv.wf.table_mod ht
  have hdiv : t / 4096 * 4096 = t := by omega
  exact Set.disjoint_left.mp inv.accounted.tablesHeld (show t / 4096 ∈ tableBlocks s from ⟨p, by rw [hdiv]; exact ht⟩) hn

theorem alloc (hn : n ∈ s.clear) : FrameInv s₀ (mmapSet s n) (insert n held) := by
  have hlt := (mem_clear.mp hn).1
  have hs := inv.wf.scanned_le
  obtain ⟨hinit, htable, hheld⟩ := inv.clear_cases hn
  have htables := tableBlocks_congr OnlyMem.mmapSet (inv.wf.tables_mmapSet hlt)
  have hused : usedBlocks (mmapSet s n) = insert n (usedBlocks s) := by
    ext k
    rw [mem_usedBlocks, clear_mmapSet hs (by omega), OnlyMem.mmapSet.scanned, Set.mem_insert_iff, mem_usedBlocks,
      Finset.mem_erase]
    by_cases hk : k = n <;> simp [hk, hlt]
  refine ⟨inv.wf.mmapSet hn, inv.scanned, fun k hk => ?_, ⟨?_, ?_, ?_, ?_, inv.wf.mmapSet hn |>.tree.unique_table⟩⟩
  · rcases Finset.mem_insert.mp hk with rfl | hk
    · exact inv.wf.clearApart k hn
    · exact inv.heldApart k hk
  · rw [hused, htables, inv.accounted.used, Finset.coe_insert, Set.union_insert]
  · rw [htables]
    exact inv.accounted.initTables
  · rw [Finset.coe_insert]
    exact Set.disjoint_insert_right.mpr ⟨hinit, inv.accounted.initHeld⟩
  · rw [htables, Finset.coe_insert]
    exact Set.disjoint_insert_right.mpr ⟨htable, inv.accounted.tablesHeld⟩

theorem free (hn : n ∈ held) : FrameInv s₀ (mmapUnset s n) (held.erase n) := by
  have hlt := (inv.held_used hn).1
  have hs := inv.wf.scanned_le
  have hwf := inv.wf.mmapUnset hlt (fun p t ht => inv.held_not_table hn ht) (inv.heldApart n hn)
  have htables := tableBlocks_congr OnlyMem.mmapUnset (inv.wf.tables_mmapUnset hlt)
  have hsub : (↑(held.erase n) : Set Nat) ⊆ ↑held := Finset.coe_subset.mpr (Finset.erase_subset _ _)
  have hused : usedBlocks (mmapUnset s n) = usedBlocks s \ {n} := by
    ext k
    rw [mem_usedBlocks, clear_mmapUnset hs hlt, OnlyMem.mmapUnset.scanned, Set.mem_sdiff, mem_usedBlocks,
      Finset.mem_insert, Set.mem_singleton_iff]
    tauto
  have hinit : n ∉ usedBlocks s₀ := fun h => Set.disjoint_left.mp inv.accounted.initHeld h hn
  have htable : n ∉ tableBlocks s := fun h => Set.disjoint_left.mp inv.accounted.tablesHeld h hn
  refine ⟨hwf, inv.scanned, fun k hk => inv.heldApart k (Finset.mem_of_mem_erase hk), ⟨?_, ?_, ?_, ?_,
    hwf.tree.unique_table⟩⟩
  · rw [hused, htables, inv.accounted.used, Finset.coe_erase, Set.union_sdiff_distrib]
    congr 1
    rw [Set.sdiff_singleton_eq_self]
    exact fun h => h.elim hinit htable
  · rw [htables]
    exact inv.accounted.initTables
  · exact inv.accounted.initHeld.mono_right hsub
  · rw [htables]
    exact inv.accounted.tablesHeld.mono_right hsub

theorem extend (e : Extends s.root s s') : FrameInv s₀ s' held := by
  have hroot := e.only.root
  -- The frames that became used are exactly those that became tables.
  have hnew : ∀ k, k ∈ tableBlocks s' ↔ k ∈ tableBlocks s ∨ k ∈ s.clear ∧ k ∉ s'.clear := by
    intro k
    have hdiv : k * 4096 / 4096 = k := by omega
    constructor
    · rintro ⟨p, hp⟩
      rw [hroot] at hp
      have := e.new p _ hp
      rw [hdiv] at this
      exact this.imp_left fun h => ⟨p, h⟩
    · rintro (⟨p, hp⟩ | ⟨hk, hk'⟩)
      · exact ⟨p, by rw [hroot]; exact e.kept p _ hp⟩
      · obtain ⟨p, hp⟩ := e.taken k hk hk'
        exact ⟨p, by rw [hroot]; exact hp⟩
  have hused : ∀ k, k ∈ usedBlocks s' ↔ k ∈ usedBlocks s ∨ k ∈ s.clear ∧ k ∉ s'.clear := by
    intro k
    rw [mem_usedBlocks, mem_usedBlocks, e.only.scanned]
    constructor
    · rintro ⟨hk, hk'⟩
      by_cases hc : k ∈ s.clear
      · exact Or.inr ⟨hc, hk'⟩
      · exact Or.inl ⟨hk, hc⟩
    · rintro (⟨hk, hc⟩ | ⟨hc, hk'⟩)
      · exact ⟨hk, fun h => hc (e.clear h)⟩
      · exact ⟨(mem_clear.mp hc).1, hk'⟩
  refine ⟨by rw [hroot]; exact e.wf, by rw [e.only.scanned, inv.scanned], fun k hk a ha => ?_, ⟨?_, ?_, ?_, ?_, ?_⟩⟩
  · rw [e.only.storage]
    exact inv.heldApart k hk a ha
  · ext k
    rw [hused, inv.accounted.used, Set.mem_union, Set.mem_union, Set.mem_union, Set.mem_union, hnew]
    tauto
  · refine Set.disjoint_left.mpr fun k hk hk' => ?_
    rcases (hnew k).mp hk' with ht | ⟨hc, -⟩
    · exact Set.disjoint_left.mp inv.accounted.initTables hk ht
    · exact (inv.clear_cases hc).1 hk
  · exact inv.accounted.initHeld
  · refine Set.disjoint_left.mpr fun k hk' hk => ?_
    rcases (hnew k).mp hk' with ht | ⟨hc, -⟩
    · exact Set.disjoint_left.mp inv.accounted.tablesHeld ht hk
    · exact (inv.clear_cases hc).2.2 hk
  · rw [hroot]
    exact e.wf.tree.unique_table

theorem write {a : Nat} {b : BitVec 8} (ha : a / 4096 ∈ held) : FrameInv s₀ { s with mem := s.mem.set a b } held := by
  have only : OnlyMem s { s with mem := s.mem.set a b } := rfl
  have htables : ∀ p t x, Table s.mem s.root p t → t ≤ x → x < t + 4096 → s.mem.set a b x = s.mem x := by
    intro p t x ht hlo hhi
    have hmod := inv.wf.table_mod ht
    refine Memory.set_of_ne _ _ ?_
    rintro rfl
    exact inv.held_not_table ha ht (by omega)
  have hstore : ∀ x, s.Storage x → s.mem.set a b x = s.mem x := fun x hx => by
    refine Memory.set_of_ne _ _ ?_
    rintro rfl
    exact inv.heldApart _ ha x rfl hx
  have hclear : ({ s with mem := s.mem.set a b } : State).clear = s.clear := only.clear hstore
  have hused : usedBlocks { s with mem := s.mem.set a b } = usedBlocks s := by
    ext k
    rw [mem_usedBlocks, mem_usedBlocks, hclear, only.scanned]
  have hblocks := tableBlocks_congr only htables
  have hwf : WellFormed { s with mem := s.mem.set a b } s.root := by
    refine inv.wf.congr only htables (fun p t ht => ?_) fun k hk x hx => ?_
    · obtain ⟨hlt, hbit⟩ := inv.wf.used p t ht
      rw [only.bit hstore hlt, hbit]
    · rw [hclear] at hk
      exact inv.wf.clearApart k hk x hx
  refine ⟨hwf, inv.scanned, inv.heldApart, ⟨?_, ?_, inv.accounted.initHeld, ?_, hwf.tree.unique_table⟩⟩
  · rw [hused, hblocks, inv.accounted.used]
  · rw [hblocks]
    exact inv.accounted.initTables
  · rw [hblocks]
    exact inv.accounted.tablesHeld

theorem dataBlock (hn : n ∈ held) : DataBlock s s.root n where
  scanned := (inv.held_used hn).1
  used := by
    cases hbit : s.bit n with
    | true => rfl
    | false => exact absurd (mem_clear.mpr ⟨(inv.held_used hn).1, hbit⟩) (inv.held_used hn).2
  noTable p t ht := inv.held_not_table hn ht
  apart := inv.heldApart n hn

theorem freePage_eq {va : Word} (hn : frame (leaf s.mem s.root va) / 4096 ∈ held)
    (h : vmmFreePage s s.kernelPageMap va = .ok s') :
    ∃ s₁ s₂, Extends s.root s s₁ ∧ s₂ = mmapUnset s₁ (frame (leaf s.mem s.root va) / 4096 : Nat) ∧
      FrameInv s₀ s₂ (held.erase (frame (leaf s.mem s.root va) / 4096)) ∧ Extends s.root s₂ s' ∧
      s'.clear = s₂.clear := by
  rw [← tableVirt_root] at h
  obtain ⟨s₁, ext, -, -, ext₂, hclear⟩ := vmmFreePage_steps inv.wf (inv.dataBlock hn) rfl h
  exact ⟨s₁, _, ext, rfl, (inv.extend ext).free hn, ext₂, hclear⟩

/-- A page that is mapped to a held block is freed and unmapped. -/
theorem freePage {va : Word} {tr : Translation} (hw : walk s.mem s.root va = some tr) (hn : tr.page / 4096 ∈ held)
    (h : vmmFreePage s s.kernelPageMap va = .ok s') : FrameInv s₀ s' (held.erase (tr.page / 4096)) := by
  have hpage := inv.wf.tree.page_eq hw
  rw [hpage] at hn ⊢
  obtain ⟨s₁, s₂, ext, hs₂, hinv₂, ext₂, -⟩ := inv.freePage_eq hn h
  have hroot : s₂.root = s.root := by
    rw [hs₂]
    exact (ext.only.trans OnlyMem.mmapUnset).root
  rw [← hroot] at ext₂
  exact hinv₂.extend ext₂

theorem step (h0 : 0 ∉ s₀.clear) (h : FrameStep s held s' held') : FrameInv s₀ s' held' := by
  have hs := inv.wf.scanned_le
  cases h with
  | alloc h =>
    cases hl : FirstFit.least s.clear with
    | none =>
      rw [pmmAllocBlock_of_empty (FirstFit.least_eq_none.mp hl)] at h
      exact absurd rfl h
    | some n =>
      have hn := (FirstFit.least_eq_some.mp hl).1
      have hlt := (mem_clear.mp hn).1
      have hdiv : (blockAddr n).toNat / 4096 = n := by
        rw [blockAddr_toNat (by omega)]
        omega
      rw [pmmAllocBlock_of_least hs hl, hdiv]
      exact inv.alloc hn
  | noBlock h =>
    cases hl : FirstFit.least s.clear with
    | none =>
      rw [pmmAllocBlock_of_empty (FirstFit.least_eq_none.mp hl)]
      exact inv
    | some n =>
      -- Block 0 is never clear, so NULL means that there is no block.
      have hn := (FirstFit.least_eq_some.mp hl).1
      have hlt := (mem_clear.mp hn).1
      rw [pmmAllocBlock_of_least hs hl, blockAddr_eq_zero (by omega)] at h
      exact absurd (h ▸ hn) (inv.clear_ne_zero h0)
  | free h =>
    have hlt := (inv.held_used h).1
    rw [pmmFreeBlock_eq (by omega)]
    exact inv.free h
  | map h =>
    rw [← tableVirt_root] at h
    exact inv.extend (vmmMapPage_extends inv.wf h)
  | freePage hw hn h => exact inv.freePage hw hn h
  | write h => exact inv.write h

end FrameInv

section
variable {M : List MemmapEntry} {b : Boot} {mem : Memory} {s₀ s₁ s : State} {held : Finset Nat} {hhdm : Word} {n : Nat}

theorem FrameRun.inv (h0 : 0 ∉ s₀.clear) (hstart : FrameInv s₀ s₁ ∅) (h : FrameRun s₁ s held) : FrameInv s₀ s held := by
  induction h with
  | start => exact hstart
  | step _ hs ih => exact ih.step h0 hs

/-- The empty page map that is allocated from `s₀` starts the runs. -/
theorem NewMap.frameInv (h : NewMap s₀ s₁ n) : FrameInv s₀ s₁ ∅ := by
  have hnlt := (mem_clear.mp h.block).1
  have hroot := h.root
  have htables : tableBlocks s₁ = {n} := by
    ext k
    constructor
    · rintro ⟨p, hp⟩
      rw [hroot, h.tables] at hp
      have := hp.2
      exact Set.mem_singleton_iff.mpr (by omega)
    · intro hk
      exact ⟨[], by rw [hroot, Set.mem_singleton_iff.mp hk]; exact table_nil⟩
  have hfree : n ∉ usedBlocks s₀ := fun hu => (mem_usedBlocks.mp hu).2 h.block
  have hwf : WellFormed s₁ s₁.root := by
    rw [hroot]
    exact h.wf
  refine ⟨hwf, h.scanned, by simp, ⟨?_, ?_, by simp, by simp, hwf.tree.unique_table⟩⟩
  · ext k
    rw [mem_usedBlocks, h.clear, h.scanned, htables, Finset.mem_erase, Set.mem_union, Set.mem_union, mem_usedBlocks,
      Set.mem_singleton_iff]
    by_cases hk : k = n <;> simp [hk, hnlt]
  · rw [htables, Set.disjoint_singleton_right]
    exact hfree

/-- In every run from an empty page map after `pmm_init`, the used frames are those used by `pmm_init`,
    the page tables and the blocks of the clients, each counted once. -/
theorem frameRun_accounted (hM : UsableOk M) (h0 : 0 ∉ usablePages M) (hb : b.memmap = some M)
    (hinit : pmmInit b (entryState mem) = .ok s₀) (hmap : newPageMap { s₀ with hhdmoffset := hhdm } = .ok s₁)
    (h : FrameRun s₁ s held) : FramesAccounted s₀ s held := by
  have ready := pmmInit_ready hM hb hinit
  have hap := ready.apart hM
  have hzero : 0 ∉ s₀.clear := fun hmem => by
    obtain ⟨hlt, hbit⟩ := mem_clear.mp hmem
    exact h0 ((ready.clear 0 hlt).mp hbit).1
  obtain ⟨n, hnew⟩ := newPageMap_newMap (s := { s₀ with hhdmoffset := hhdm }) ⟨hap.clearApart, hap.count⟩ hmap
  have hinv : FrameInv { s₀ with hhdmoffset := hhdm } s held := FrameRun.inv hzero hnew.frameInv h
  exact ⟨hinv.accounted.used, hinv.accounted.initTables, hinv.accounted.initHeld, hinv.accounted.tablesHeld,
    hinv.accounted.once⟩

/-- With four blocks left, a client can take one and have it mapped. -/
theorem FrameInv.exists_map (inv : FrameInv s₀ s₁ ∅) (h0 : 0 ∉ s₀.clear) (hh : HhdmOk s₁) (hcard : 4 ≤ s₁.clear.card)
    (va : Word) : ∃ n s, (pmmAllocBlock s₁).1 = blockAddr n ∧ blockAddr n ≠ 0 ∧
      vmmMapPage (pmmAllocBlock s₁).2 (pmmAllocBlock s₁).2.kernelPageMap va (blockAddr n)
        (PTE_BIT_PRESENT ||| PTE_BIT_READ_WRITE) = .ok s ∧ n < 2 ^ 31 ∧ HhdmOk s ∧
      leaf s.mem s.root va = blockAddr n ||| (PTE_BIT_PRESENT ||| PTE_BIT_READ_WRITE) := by
  cases hl : FirstFit.least s₁.clear with
  | none =>
    rw [FirstFit.least_eq_none.mp hl, Finset.card_empty] at hcard
    omega
  | some n =>
    have hs := inv.wf.scanned_le
    have hn := (FirstFit.least_eq_some.mp hl).1
    have hlt := (mem_clear.mp hn).1
    have hzero := inv.clear_ne_zero h0
    have hne : blockAddr n ≠ 0 := by
      rw [Ne, blockAddr_eq_zero (by omega)]
      rintro rfl
      exact hzero hn
    have hclear := clear_mmapSet (n := n) hs (by omega)
    have hwf := inv.wf.mmapSet hn
    have hroot : (mmapSet s₁ n).root = s₁.root := OnlyMem.mmapSet.root
    rw [← hroot] at hwf
    obtain ⟨s, h, -⟩ := vmmMapPage_ok va (blockAddr n) (PTE_BIT_PRESENT ||| PTE_BIT_READ_WRITE) hwf
      (OnlyMem.mmapSet.hhdmOk hh) (by rw [hclear]; exact fun h => hzero (Finset.mem_of_mem_erase h))
      (by rw [hclear, Finset.card_erase_of_mem hn]; omega)
    have only := (vmmMapPage_extends hwf h).only
    have hleaf : leaf s.mem s.root va = blockAddr n ||| (PTE_BIT_PRESENT ||| PTE_BIT_READ_WRITE) := by
      rw [only.root, vmmMapPage_leaf hwf h, if_pos rfl]
    rw [tableVirt_root] at h
    refine ⟨n, s, ?_, hne, ?_, by omega, only.hhdmOk (OnlyMem.mmapSet.hhdmOk hh), hleaf⟩
    · rw [pmmAllocBlock_of_least hs hl]
    · rwa [pmmAllocBlock_of_least hs hl]

theorem FrameInv.exists_run (inv : FrameInv s₀ s₁ ∅) (h0 : 0 ∉ s₀.clear) (hh : HhdmOk s₁) (hcard : 4 ≤ s₁.clear.card)
    (va : Word) : ∃ n s, FrameRun s₁ s {n} ∧ n < 2 ^ 31 ∧ HhdmOk s ∧
      leaf s.mem s.root va = blockAddr n ||| (PTE_BIT_PRESENT ||| PTE_BIT_READ_WRITE) := by
  obtain ⟨n, s, haddr, hne, hmap, hlt, hh', hleaf⟩ := inv.exists_map h0 hh hcard va
  have hdiv : (blockAddr n).toNat / 4096 = n := by
    rw [blockAddr_toNat (by omega)]
    omega
  have hrun := FrameRun.start.step (.alloc (haddr ▸ hne))
  rw [haddr, hdiv, insert_empty_eq] at hrun
  exact ⟨n, s, hrun.step (.map hmap), hlt, hh', hleaf⟩

end

/-- A client takes a block on a machine with 64 MiB, and has a page mapped. -/
theorem frameRun_accounted_sample : ∃ s₀ s₁ s held, pmmInit (sampleBoot sampleMap) (entryState fun _ => 0) = .ok s₀ ∧
    newPageMap { s₀ with hhdmoffset := (sampleBoot sampleMap).hhdm } = .ok s₁ ∧ FrameRun s₁ s held ∧
    held.Nonempty ∧ FramesAccounted s₀ s held := by
  obtain ⟨s₀, s₁, n, hinit, hmap, hnew, hh, -, hcard⟩ := newMap_sample fun _ => 0
  have like := sampleMap_like
  have hzero : 0 ∉ s₀.clear := by
    rw [like.clear (pmmInit_ready like.ok rfl hinit)]
    simp
  obtain ⟨k, s, hrun, -⟩ := hnew.frameInv.exists_run hzero hh (by omega) 0x400000
  exact ⟨s₀, s₁, s, _, hinit, hmap, hrun, Finset.singleton_nonempty k,
    frameRun_accounted like.ok like.zero rfl hinit hmap hrun⟩

end Neobird64
