import Neobird64.Theorems.Loops
import Neobird64.Lib.PageTree
import Neobird64.Vmm

/-! The page tables of the kernel in its memory. The tables, the storage of the bitmap and the frames
    that the allocator may hand out are apart from each other, so a table that `get_lower_table` links
    extends the tree and changes no translation. -/

namespace Neobird64
open State Paging PathTree

/-- The page tables below the top-level table at `root` form a tree of used frames, and no table and no
    clear frame overlaps the storage of the bitmap. -/
structure WellFormed (s : State) (root : Nat) : Prop where
  tree : PageTree s.mem root
  used : ∀ p t, Table s.mem root p t → t / 4096 < s.scanned ∧ s.bit (t / 4096) = true
  apart : ∀ p t, Table s.mem root p t → ∀ a, t ≤ a → a < t + 4096 → ¬s.Storage a
  clearApart : ∀ n ∈ s.clear, ∀ a, a / 4096 = n → ¬s.Storage a
  count : s.pmmBlockCount.toNat ≤ 2 ^ 31

/-- The page tables below `root` are distinct used frames, and none overlaps the storage of the bitmap. -/
structure TablesOk (s : State) (root : Nat) : Prop where
  tree : TableTree s.mem root
  used : ∀ p t, Table s.mem root p t → t / 4096 < s.scanned ∧ s.bit (t / 4096) = true
  apart : ∀ p t, Table s.mem root p t → ∀ a, t ≤ a → a < t + 4096 → ¬s.Storage a
  count : s.pmmBlockCount.toNat ≤ 2 ^ 31

/-- The physical address of the kernel's top-level table. -/
def State.root (s : State) : Nat := s.phys .hhdm s.kernelPageMap

/-- The pointer through which the kernel reaches the table at `t`. -/
def tableVirt (s : State) (t : Nat) : Word := BitVec.ofNat 64 t + s.hhdmoffset

/-- The entry that `get_lower_table` writes for a table in block `n`. -/
def linkEntry (n : Nat) : Word := blockAddr n ||| PTE_BIT_PRESENT ||| PTE_BIT_READ_WRITE ||| PTE_BIT_ACCESS_ALL

/-- `s` with block `n` taken, cleared and linked at entry `i` of the table at `t`. -/
def linkTable (s : State) (n t : Nat) (i : Fin 512) : State :=
  (memset .hhdm (mmapSet s n) (tableVirt s (n * 4096)) 0 4096).store64 .hhdm
    (tableVirt s t + 8 * BitVec.ofNat 64 i) (linkEntry n)

theorem tableVirt_root {s : State} : tableVirt s s.root = s.kernelPageMap := by
  rw [tableVirt, State.root, phys, BitVec.ofNat_toNat, BitVec.setWidth_eq, BitVec.sub_add_cancel]

theorem OnlyMem.root {s s' : State} (h : OnlyMem s s') : s'.root = s.root := by
  rw [State.root, State.root, phys, phys, h.kernelPageMap, h.hhdmoffset]

/-! ### Entries -/

section
variable {s s' s'' : State} {root n t : Nat} {i j : Fin 512} {e q : Word} {p : List (Fin 512)} {va : Word}

theorem OnlyMem.tableVirt (h : OnlyMem s s') : tableVirt s' t = tableVirt s t := by
  rw [Neobird64.tableVirt, Neobird64.tableVirt, h.hhdmoffset]

theorem phys_entry (ht : t + 4096 ≤ 2 ^ 64) : s.phys .hhdm (tableVirt s t + 8 * BitVec.ofNat 64 i) = t + 8 * i := by
  have hoff := s.hhdmoffset.isLt
  have hi := i.isLt
  have h8 : (8 : Word).toNat = 8 := rfl
  simp only [phys, tableVirt, h8, BitVec.toNat_sub, BitVec.toNat_add, BitVec.toNat_mul, BitVec.toNat_ofNat]
  omega

theorem load64_entry (ht : t + 4096 ≤ 2 ^ 64) :
    s.load64 .hhdm (tableVirt s t + 8 * BitVec.ofNat 64 i) = entry s.mem t i := by
  rw [load64, phys_entry ht, entry]

theorem mem_store64_entry (ht : t + 4096 ≤ 2 ^ 64) :
    (s.store64 .hhdm (tableVirt s t + 8 * BitVec.ofNat 64 i) e).mem = s.mem.write64 (t + 8 * i) e := by
  simp only [store64, phys_entry ht]

theorem and_present (e : Word) : e &&& PTE_BIT_PRESENT ≠ 0 ↔ present e = true := by
  have hbit : PTE_BIT_PRESENT = BitVec.twoPow 64 0 := by decide
  have hne : BitVec.twoPow 64 0 ≠ 0#64 := by decide
  rw [hbit, BitVec.and_twoPow, present]
  by_cases h : e.getLsbD 0 = true <;> simp [h, hne]

theorem linkEntry_eq (n : Nat) :
    linkEntry n = blockAddr n ||| (PTE_BIT_PRESENT ||| PTE_BIT_READ_WRITE ||| PTE_BIT_ACCESS_ALL) := by
  simp only [linkEntry, BitVec.or_assoc]

theorem frame_linkEntry (hn : n < 2 ^ 40) : frame (linkEntry n) = n * 4096 := by
  have haddr := blockAddr_toNat (n := n) (by omega)
  rw [linkEntry_eq, frame_or (by omega) (by decide)]
  omega

theorem getLsbD_linkEntry (hn : n < 2 ^ 40) {k : Nat} (hk : k < 12 ∨ 52 ≤ k) :
    (linkEntry n).getLsbD k = (PTE_BIT_PRESENT ||| PTE_BIT_READ_WRITE ||| PTE_BIT_ACCESS_ALL).getLsbD k := by
  have haddr := blockAddr_toNat (n := n) (by omega)
  rw [linkEntry_eq, getLsbD_or (by omega) (by omega) hk]

theorem linkEntry_present (hn : n < 2 ^ 40) : present (linkEntry n) = true := by
  rw [present, getLsbD_linkEntry hn (by omega)]
  rfl

theorem linkEntry_grants (hn : n < 2 ^ 40) : Grants (linkEntry n) where
  writable := by rw [writable, getLsbD_linkEntry hn (by omega)]; rfl
  user := by rw [user, getLsbD_linkEntry hn (by omega)]; rfl
  small := by rw [pageSize, getLsbD_linkEntry hn (by omega)]; rfl
  exec := by rw [noExec, getLsbD_linkEntry hn (by omega)]; rfl

/-! ### Well-formed page maps -/

namespace TablesOk
variable (ok : TablesOk s root)
include ok

theorem scanned_le : s.scanned ≤ 2 ^ 31 := scanned_of_count ok.count

theorem table_mod (ht : Table s.mem root p t) : t % 4096 = 0 := Table.mod ok.tree.aligned ht

theorem table_lt (ht : Table s.mem root p t) : t + 4096 ≤ 2 ^ 43 := by
  have h1 := ok.scanned_le
  have h2 := (ok.used p t ht).1
  have h3 := ok.table_mod ht
  omega

end TablesOk

namespace WellFormed
variable (wf : WellFormed s root)
include wf

theorem tablesOk : TablesOk s root := ⟨wf.tree.tableTree, wf.used, wf.apart, wf.count⟩

theorem scanned_le : s.scanned ≤ 2 ^ 31 := scanned_of_count wf.count

theorem table_mod (ht : Table s.mem root p t) : t % 4096 = 0 := wf.tablesOk.table_mod ht

theorem table_lt (ht : Table s.mem root p t) : t + 4096 ≤ 2 ^ 43 := wf.tablesOk.table_lt ht

theorem ne_of_clear (hn : n ∈ s.clear) (ht : Table s.mem root p t) : t / 4096 ≠ n := by
  rintro rfl
  exact absurd (mem_clear.mp hn).2 (by simp [(wf.used p t ht).2])

end WellFormed

/-- `s'` has the page tables of `s` and some more, in frames that were clear and are now used; only the
    bitmap and the tables differ. -/
structure Extends (root : Nat) (s s' : State) : Prop where
  only : OnlyMem s s'
  wf : WellFormed s' root
  kept : ∀ p t, Table s.mem root p t → Table s'.mem root p t
  clear : s'.clear ⊆ s.clear
  new : ∀ p t, Table s'.mem root p t → Table s.mem root p t ∨ t / 4096 ∈ s.clear ∧ t / 4096 ∉ s'.clear
  taken : ∀ n ∈ s.clear, n ∉ s'.clear → ∃ p, Table s'.mem root p (n * 4096)
  changed : ∀ a, s'.mem a ≠ s.mem a → s.Storage a ∨ ∃ p t, Table s'.mem root p t ∧ t ≤ a ∧ a < t + 4096

namespace Extends

theorem refl (wf : WellFormed s root) : Extends root s s where
  only := OnlyMem.refl s
  wf := wf
  kept _ _ h := h
  clear := Finset.Subset.refl _
  new _ _ h := Or.inl h
  taken _ h h' := absurd h h'
  changed _ h := absurd rfl h

theorem trans (h₁ : Extends root s s') (h₂ : Extends root s' s'') : Extends root s s'' where
  only := h₁.only.trans h₂.only
  wf := h₂.wf
  kept p t h := h₂.kept p t (h₁.kept p t h)
  clear := h₂.clear.trans h₁.clear
  new p t h := by
    rcases h₂.new p t h with h | ⟨hc, hn⟩
    · rcases h₁.new p t h with h | ⟨hc, hn⟩
      · exact Or.inl h
      · exact Or.inr ⟨hc, fun hc' => hn (h₂.clear hc')⟩
    · exact Or.inr ⟨h₁.clear hc, hn⟩
  taken n hn hn' := by
    by_cases hc : n ∈ s'.clear
    · exact h₂.taken n hc hn'
    · obtain ⟨p, hp⟩ := h₁.taken n hn hc
      exact ⟨p, h₂.kept p _ hp⟩
  changed a h := by
    by_cases ha : s''.mem a = s'.mem a
    · rcases h₁.changed a (ha ▸ h) with hs | ⟨p, t, ht, hle, hlt⟩
      · exact Or.inl hs
      · exact Or.inr ⟨p, t, h₂.kept p t ht, hle, hlt⟩
    · exact (h₂.changed a ha).imp_left h₁.only.storage.mp

end Extends

/-! ### Linking a new table -/

theorem linkTable_onlyMem : OnlyMem s (linkTable s n t i) :=
  (OnlyMem.mmapSet.trans OnlyMem.memset).trans OnlyMem.store64

theorem mem_linkTable (ht : t + 4096 ≤ 2 ^ 64) : (linkTable s n t i).mem =
    (memset .hhdm (mmapSet s n) (tableVirt s (n * 4096)) 0 4096).mem.write64 (t + 8 * i) (linkEntry n) := by
  have only : OnlyMem s (memset .hhdm (mmapSet s n) (tableVirt s (n * 4096)) 0 4096) :=
    OnlyMem.mmapSet.trans OnlyMem.memset
  have hmem := mem_store64_entry (i := i) (e := linkEntry n) (s := memset .hhdm (mmapSet s n) (tableVirt s (n * 4096)) 0 4096) ht
  rw [only.tableVirt] at hmem
  exact hmem

theorem mem_cleared (hn : n < 2 ^ 40) {a : Nat} :
    (memset .hhdm (mmapSet s n) (tableVirt s (n * 4096)) 0 4096).mem a =
      if n * 4096 ≤ a ∧ a < n * 4096 + 4096 then 0 else (mmapSet s n).mem a := by
  rw [tableVirt, ← (OnlyMem.mmapSet (s := s) (b := n)).hhdmoffset, mem_memset_hhdm (by omega)]

section
variable (wf : WellFormed s root) (ht : Table s.mem root p t) (hn : n ∈ s.clear)
include wf ht hn

theorem mem_linkTable_of_outside {a : Nat} (hframe : a / 4096 ≠ n) (hentry : a < t + 8 * i ∨ t + 8 * i + 8 ≤ a) :
    (linkTable s n t i).mem a = (mmapSet s n).mem a := by
  have hlt := (mem_clear.mp hn).1
  have hs := wf.scanned_le
  have htlt := wf.table_lt ht
  rw [mem_linkTable (by omega), Memory.write64_of_outside hentry, mem_cleared (by omega), if_neg (by omega)]

/-- The storage of the bitmap is apart from the new table and from its parent. -/
theorem mem_linkTable_storage {a : Nat} (ha : s.Storage a) : (linkTable s n t i).mem a = (mmapSet s n).mem a := by
  have hi := i.isLt
  refine mem_linkTable_of_outside wf ht hn (fun h => wf.clearApart n hn a h ha) ?_
  by_contra hin
  exact wf.apart p t ht a (by omega) (by omega) ha

theorem bit_linkTable {k : Nat} (hk : k < s.scanned) : (linkTable s n t i).bit k = (decide (k = n) || s.bit k) := by
  have hlt := (mem_clear.mp hn).1
  have hs := wf.scanned_le
  have only : OnlyMem (mmapSet s n) (linkTable s n t i) := OnlyMem.memset.trans OnlyMem.store64
  rw [only.bit (fun a ha => mem_linkTable_storage wf ht hn (OnlyMem.mmapSet.storage.mp ha))
    (by rw [OnlyMem.mmapSet.scanned]; exact hk), bit_mmapSet (by omega) (by omega)]

theorem clear_linkTable : (linkTable s n t i).clear = s.clear.erase n := by
  ext k
  rw [Finset.mem_erase, mem_clear, mem_clear, linkTable_onlyMem.scanned]
  constructor
  · rintro ⟨hk, hbit⟩
    rw [bit_linkTable wf ht hn hk, Bool.or_eq_false_iff, decide_eq_false_iff_not] at hbit
    exact ⟨hbit.1, hk, hbit.2⟩
  · rintro ⟨hne, hk, hbit⟩
    exact ⟨hk, by rw [bit_linkTable wf ht hn hk]; simp [hne, hbit]⟩

theorem entry_linkTable_bare : entry (linkTable s n t i).mem (n * 4096) j = 0 := by
  have hlt := (mem_clear.mp hn).1
  have hs := wf.scanned_le
  have htlt := wf.table_lt ht
  have hne := wf.ne_of_clear hn ht
  rw [mem_linkTable (by omega), entry_write64 (wf.table_mod ht) (by omega), if_neg (by omega)]
  refine entry_zero fun a ha ha' => ?_
  rw [mem_cleared (by omega), if_pos ⟨ha, ha'⟩]

theorem entry_linkTable {r : List (Fin 512)} {x : Nat} (hx : Table s.mem root r x) :
    entry (linkTable s n t i).mem x j = if x = t ∧ j = i then linkEntry n else entry s.mem x j := by
  have hlt := (mem_clear.mp hn).1
  have hs := wf.scanned_le
  have htlt := wf.table_lt ht
  have hne := wf.ne_of_clear hn hx
  have hmod := wf.table_mod hx
  rw [mem_linkTable (by omega), entry_write64 (wf.table_mod ht) hmod]
  refine if_congr Iff.rfl rfl (entry_congr fun a ha ha' => ?_)
  rw [mem_cleared (by omega), if_neg (by omega), mem_mmapSet_of_not_storage hlt (wf.apart r x hx a ha ha')]

variable (hp : p.length < 3) (hi : present (entry s.mem t i) = false)
include hp hi

theorem linked_linkTable : Linked s.mem (linkTable s n t i).mem root p t i (linkEntry n) := by
  have hlt := (mem_clear.mp hn).1
  have hs := wf.scanned_le
  have hframe : frame (linkEntry n) = n * 4096 := frame_linkEntry (by omega)
  refine ⟨hp, ht.2, hi, fun q hq hx => ?_, linkEntry_present (by omega), linkEntry_grants (by omega), ?_, fun j => ?_,
    fun q z j hq hz hne => ?_⟩
  · rw [hframe] at hx
    exact wf.ne_of_clear hn ⟨hq, hx⟩ (by omega)
  · rw [entry_linkTable wf ht hn ht, if_pos ⟨rfl, rfl⟩]
  · rw [hframe, entry_linkTable_bare wf ht hn]
  · rw [entry_linkTable wf ht hn ⟨hq, hz⟩, if_neg hne]

theorem table_linkTable {r : List (Fin 512)} {x : Nat} : Table (linkTable s n t i).mem root r x ↔
    r = p ++ [i] ∧ x = n * 4096 ∨ r ≠ p ++ [i] ∧ Table s.mem root r x := by
  have hlt := (mem_clear.mp hn).1
  have hs := wf.scanned_le
  have l := linked_linkTable wf ht hn hp hi
  have hlen : (p ++ [i]).length ≤ 3 := by
    rw [List.length_append, List.length_singleton]
    omega
  rw [Table]
  constructor
  · rintro ⟨hr, hx⟩
    rw [l.follow_eq wf.tree hr] at hx
    split at hx
    · rename_i he
      cases hx
      exact Or.inl ⟨he, frame_linkEntry (by omega)⟩
    · rename_i hne
      exact Or.inr ⟨hne, hr, hx⟩
  · rintro (⟨rfl, rfl⟩ | ⟨hne, hr, hx⟩)
    · exact ⟨hlen, by rw [l.follow_eq wf.tree hlen, if_pos rfl, frame_linkEntry (by omega)]⟩
    · exact ⟨hr, by rw [l.follow_eq wf.tree hr, if_neg hne, hx]⟩

theorem wellFormed_linkTable : WellFormed (linkTable s n t i) root where
  tree := (linked_linkTable wf ht hn hp hi).pageTree wf.tree
  used r x hx := by
    have hlt := (mem_clear.mp hn).1
    rw [linkTable_onlyMem.scanned]
    rcases (table_linkTable wf ht hn hp hi).mp hx with ⟨-, rfl⟩ | ⟨-, hx⟩
    · have hdiv : n * 4096 / 4096 = n := by omega
      rw [hdiv, bit_linkTable wf ht hn hlt]
      exact ⟨hlt, by simp⟩
    · obtain ⟨hk, hbit⟩ := wf.used r x hx
      rw [bit_linkTable wf ht hn hk, hbit, Bool.or_true]
      exact ⟨hk, rfl⟩
  apart r x hx a ha ha' := by
    rw [linkTable_onlyMem.storage]
    rcases (table_linkTable wf ht hn hp hi).mp hx with ⟨-, rfl⟩ | ⟨-, hx⟩
    · exact wf.clearApart n hn a (by omega)
    · exact wf.apart r x hx a ha ha'
  clearApart k hk a ha := by
    rw [clear_linkTable wf ht hn] at hk
    rw [linkTable_onlyMem.storage]
    exact wf.clearApart k (Finset.mem_of_mem_erase hk) a ha
  count := by
    rw [linkTable_onlyMem.pmmBlockCount]
    exact wf.count

theorem extends_linkTable : Extends root s (linkTable s n t i) where
  only := linkTable_onlyMem
  wf := wellFormed_linkTable wf ht hn hp hi
  kept r x hx := ⟨hx.1, (linked_linkTable wf ht hn hp hi).link.kept wf.tree.unique hx.1 hx.2⟩
  clear := by
    rw [clear_linkTable wf ht hn]
    exact Finset.erase_subset _ _
  new r x hx := by
    rw [clear_linkTable wf ht hn]
    rcases (table_linkTable wf ht hn hp hi).mp hx with ⟨-, rfl⟩ | ⟨-, hx⟩
    · have hdiv : n * 4096 / 4096 = n := by omega
      rw [hdiv]
      exact Or.inr ⟨hn, Finset.notMem_erase n _⟩
    · exact Or.inl hx
  taken k hk hk' := by
    rw [clear_linkTable wf ht hn] at hk'
    obtain rfl : k = n := by
      by_contra hne
      exact hk' (Finset.mem_erase.mpr ⟨hne, hk⟩)
    exact ⟨p ++ [i], (table_linkTable wf ht hn hp hi).mpr (Or.inl ⟨rfl, rfl⟩)⟩
  changed a ha := by
    have hlt := (mem_clear.mp hn).1
    have hil := i.isLt
    by_cases hstore : s.Storage a
    · exact Or.inl hstore
    · right
      by_cases hframe : a / 4096 = n
      · exact ⟨p ++ [i], n * 4096, (table_linkTable wf ht hn hp hi).mpr (Or.inl ⟨rfl, rfl⟩), by omega, by omega⟩
      · by_cases hentry : a < t + 8 * i ∨ t + 8 * i + 8 ≤ a
        · rw [mem_linkTable_of_outside wf ht hn hframe hentry, mem_mmapSet_of_not_storage hlt hstore] at ha
          exact absurd rfl ha
        · have l := linked_linkTable wf ht hn hp hi
          exact ⟨p, t, ⟨ht.1, l.link.kept wf.tree.unique ht.1 ht.2⟩, by omega, by omega⟩

end

/-! ### `get_lower_table` and `get_pt` -/

/-- `get_lower_table` returns the table that the entry leads to, or links a new one in the least clear
    block. -/
theorem getLowerTable_cases (hs : s.scanned ≤ 2 ^ 31) (ht : t + 4096 ≤ 2 ^ 64)
    (h : getLowerTable s (tableVirt s t) (BitVec.ofNat 64 i) = .ok (q, s')) :
    present (entry s.mem t i) = true ∧ q = tableVirt s (frame (entry s.mem t i)) ∧ s' = s ∨
    present (entry s.mem t i) = false ∧ ∃ n ∈ s.clear, n ≠ 0 ∧ q = tableVirt s (n * 4096) ∧ s' = linkTable s n t i := by
  rw [getLowerTable, load64_entry ht] at h
  by_cases hpr : present (entry s.mem t i) = true
  · rw [if_pos ((and_present _).mpr hpr)] at h
    cases h
    refine Or.inl ⟨hpr, ?_, rfl⟩
    rw [tableVirt, ofNat_frame]
    rfl
  · rw [if_neg (fun hne => hpr ((and_present _).mp hne))] at h
    refine Or.inr ⟨by simpa using hpr, ?_⟩
    cases hl : FirstFit.least s.clear with
    | none =>
      rw [pmmAllocBlock_of_empty (FirstFit.least_eq_none.mp hl)] at h
      cases h
    | some n =>
      have hn := (FirstFit.least_eq_some.mp hl).1
      have hlt := (mem_clear.mp hn).1
      have hpage : PAGE_SIZE.toNat = 4096 := rfl
      simp only [pmmAllocBlock_of_least hs hl, hpage] at h
      split at h
      · cases h
      · rename_i hne
        simp only [Except.ok.injEq, Prod.mk.injEq] at h
        obtain ⟨hq, hlink⟩ := h
        have hs' : s' = linkTable s n t i := by
          rw [← hlink, linkTable, linkEntry, tableVirt, tableVirt, (OnlyMem.mmapSet (s := s) (b := n)).hhdmoffset,
            blockAddr]
        refine ⟨n, hn, fun h0 => hne ((blockAddr_eq_zero (by omega)).mpr h0), ?_, hs'⟩
        rw [← hq, hlink, hs', linkTable_onlyMem.hhdmoffset, tableVirt, blockAddr]

theorem getLowerTable_extends (wf : WellFormed s root) (hp : p.length < 3) (ht : follow (child s.mem) root p = some t)
    (h : getLowerTable s (tableVirt s t) (BitVec.ofNat 64 i) = .ok (q, s')) :
    ∃ x, q = tableVirt s x ∧ Extends root s s' ∧ (∀ va, leaf s'.mem root va = leaf s.mem root va) ∧
      follow (child s'.mem) root (p ++ [i]) = some x := by
  have htable : Table s.mem root p t := ⟨hp.le, ht⟩
  have htlt := wf.table_lt htable
  rcases getLowerTable_cases wf.scanned_le (by omega) h with ⟨hpr, hq, rfl⟩ | ⟨hpr, n, hn, -, hq, rfl⟩
  · exact ⟨_, hq, Extends.refl wf, fun _ => rfl, by rw [follow_concat_of_eq ht, child_of_present hpr]⟩
  · refine ⟨_, hq, extends_linkTable wf htable hn hp hpr, (linked_linkTable wf htable hn hp hpr).leaf_eq wf.tree, ?_⟩
    exact ((table_linkTable wf htable hn hp hpr).mpr (Or.inl ⟨rfl, rfl⟩)).2

/-- `get_pt` finds or builds the page table of `va`; no translation changes on the way. -/
theorem getPt_extends (wf : WellFormed s root) (h : getPt s (tableVirt s root) va = .ok (q, s')) (hq : q ≠ 0) :
    ∃ t, q = tableVirt s t ∧ Extends root s s' ∧ (∀ va, leaf s'.mem root va = leaf s.mem root va) ∧
      follow (child s'.mem) root (upper va) = some t := by
  simp only [getPt, index_eq] at h
  obtain ⟨⟨q₁, s₁⟩, h₁, h⟩ := Loop.bind_eq_ok.mp h
  obtain ⟨t₁, rfl, e₁, l₁, f₁⟩ := getLowerTable_extends (p := []) wf (by simp) rfl h₁
  dsimp only at h
  split at h
  · cases h
    exact absurd rfl hq
  rw [← e₁.only.tableVirt] at h
  obtain ⟨⟨q₂, s₂⟩, h₂, h⟩ := Loop.bind_eq_ok.mp h
  obtain ⟨t₂, rfl, e₂, l₂, f₂⟩ := getLowerTable_extends e₁.wf (by simp) f₁ h₂
  dsimp only at h
  split at h
  · cases h
    exact absurd rfl hq
  rw [← e₂.only.tableVirt] at h
  obtain ⟨⟨q₃, s₃⟩, h₃, h⟩ := Loop.bind_eq_ok.mp h
  obtain ⟨t₃, rfl, e₃, l₃, f₃⟩ := getLowerTable_extends e₂.wf (by simp) f₂ h₃
  dsimp only at h
  split at h
  · cases h
    exact absurd rfl hq
  cases h
  refine ⟨t₃, by rw [e₂.only.tableVirt, e₁.only.tableVirt], (e₁.trans e₂).trans e₃, fun va => ?_, f₃⟩
  rw [l₃, l₂, l₁]

/-! ### When they return -/

/-- The HHDM leaves room for 8 TiB, so no table has a NULL pointer. -/
def HhdmOk (s : State) : Prop := 0 < s.hhdmoffset.toNat ∧ s.hhdmoffset.toNat + 2 ^ 43 ≤ 2 ^ 64

theorem OnlyMem.hhdmOk (h : OnlyMem s s') (hh : HhdmOk s) : HhdmOk s' := by
  rw [HhdmOk, h.hhdmoffset]
  exact hh

theorem tableVirt_ne_zero (hh : HhdmOk s) (ht : t + 4096 ≤ 2 ^ 43) : tableVirt s t ≠ 0 := by
  obtain ⟨h0, hlt⟩ := hh
  intro h
  have hnat := congrArg BitVec.toNat h
  have hzero : (0 : Word).toNat = 0 := rfl
  rw [tableVirt, BitVec.toNat_add, BitVec.toNat_ofNat, hzero] at hnat
  omega

theorem getLowerTable_of_present (ht : t + 4096 ≤ 2 ^ 64) (h : present (entry s.mem t i) = true) :
    getLowerTable s (tableVirt s t) (BitVec.ofNat 64 i) = .ok (tableVirt s (frame (entry s.mem t i)), s) := by
  rw [getLowerTable, load64_entry ht, if_pos ((and_present _).mpr h), tableVirt, ofNat_frame]
  rfl

theorem getLowerTable_of_not_present (hs : s.scanned ≤ 2 ^ 31) (ht : t + 4096 ≤ 2 ^ 64)
    (h : present (entry s.mem t i) = false) (h0 : 0 ∉ s.clear) (hne : s.clear.Nonempty) :
    ∃ r, getLowerTable s (tableVirt s t) (BitVec.ofNat 64 i) = .ok r := by
  cases hl : FirstFit.least s.clear with
  | none => exact absurd (FirstFit.least_eq_none.mp hl) hne.ne_empty
  | some n =>
    have hn := (FirstFit.least_eq_some.mp hl).1
    have hlt := (mem_clear.mp hn).1
    have hn0 : blockAddr n ≠ 0 := fun h => h0 ((blockAddr_eq_zero (by omega)).mp h ▸ hn)
    rw [getLowerTable, load64_entry ht, if_neg (fun hp => by simp [(and_present _).mp hp] at h)]
    simp only [pmmAllocBlock_of_least hs hl, if_neg hn0]
    exact ⟨_, rfl⟩

/-- `get_lower_table` takes one block at most, and returns when there is one. -/
theorem getLowerTable_ok (wf : WellFormed s root) (hh : HhdmOk s) (hp : p.length < 3)
    (ht : follow (child s.mem) root p = some t) (h0 : 0 ∉ s.clear) (hne : s.clear.Nonempty) :
    ∃ x s', getLowerTable s (tableVirt s t) (BitVec.ofNat 64 i) = .ok (tableVirt s x, s') ∧ tableVirt s x ≠ 0 ∧
      Extends root s s' ∧ follow (child s'.mem) root (p ++ [i]) = some x ∧ s.clear.card ≤ s'.clear.card + 1 := by
  have htable : Table s.mem root p t := ⟨hp.le, ht⟩
  have htlt := wf.table_lt htable
  obtain ⟨⟨q, s'⟩, hr⟩ : ∃ r, getLowerTable s (tableVirt s t) (BitVec.ofNat 64 i) = .ok r := by
    cases hpr : present (entry s.mem t i) with
    | true => exact ⟨_, getLowerTable_of_present (by omega) hpr⟩
    | false => exact getLowerTable_of_not_present wf.scanned_le (by omega) hpr h0 hne
  obtain ⟨x, rfl, e, -, hx⟩ := getLowerTable_extends wf hp ht hr
  have hxlt := e.wf.table_lt (p := p ++ [i]) ⟨by rw [List.length_append, List.length_singleton]; omega, hx⟩
  refine ⟨x, s', hr, tableVirt_ne_zero hh hxlt, e, hx, ?_⟩
  rcases getLowerTable_cases wf.scanned_le (by omega) hr with ⟨-, -, rfl⟩ | ⟨-, n, hn, -, -, rfl⟩
  · omega
  · rw [clear_linkTable wf htable hn, Finset.card_erase_add_one hn]

/-- When the page table of `va` exists, `get_pt` only reads; it stops at a table whose pointer is NULL. -/
theorem getPt_read (ok : TablesOk s root) (ht : follow (child s.mem) root (upper va) = some t) :
    ∃ q, getPt s (tableVirt s root) va = .ok (q, s) ∧ (q ≠ 0 → q = tableVirt s t) ∧
      ((∀ p x, Table s.mem root p x → tableVirt s x ≠ 0) → q ≠ 0) := by
  have step : ∀ {q x y} {i : Fin 512}, q.length < 3 → follow (child s.mem) root q = some x →
      follow (child s.mem) root (q ++ [i]) = some y →
      getLowerTable s (tableVirt s x) (BitVec.ofNat 64 i) = .ok (tableVirt s y, s) := by
    intro q x y i hq hx hy
    have hxlt := ok.table_lt (p := q) ⟨hq.le, hx⟩
    rw [follow_concat_of_eq hx, child] at hy
    split at hy
    · rename_i hpr
      cases hy
      exact getLowerTable_of_present (by omega) hpr
    · cases hy
  have hup : upper va = [] ++ [index va 39] ++ [index va 30] ++ [index va 21] := rfl
  rw [hup] at ht
  obtain ⟨t₂, h₂, -⟩ := Option.bind_eq_some_iff.mp (follow_concat.symm.trans ht)
  obtain ⟨t₁, h₁, -⟩ := Option.bind_eq_some_iff.mp (follow_concat.symm.trans h₂)
  have e₁ := step (q := []) (by simp) rfl h₁
  have e₂ := step (by simp) h₁ h₂
  have e₃ := step (by simp) h₂ ht
  simp only [getPt, index_eq, e₁, Loop.ok_bind]
  by_cases n₁ : tableVirt s t₁ = 0
  · exact ⟨0, by rw [if_pos n₁]; rfl, fun h => absurd rfl h, fun h => absurd n₁ (h _ t₁ ⟨by simp, h₁⟩)⟩
  simp only [if_neg n₁, e₂, Loop.ok_bind]
  by_cases n₂ : tableVirt s t₂ = 0
  · exact ⟨0, by rw [if_pos n₂]; rfl, fun h => absurd rfl h, fun h => absurd n₂ (h _ t₂ ⟨by simp, h₂⟩)⟩
  simp only [if_neg n₂, e₃, Loop.ok_bind]
  by_cases n₃ : tableVirt s t = 0
  · exact ⟨0, by rw [if_pos n₃]; rfl, fun h => absurd rfl h, fun h => absurd n₃ (h _ t ⟨by simp, ht⟩)⟩
  exact ⟨_, by rw [if_neg n₃]; rfl, fun _ => rfl, fun h => h _ t ⟨by simp, ht⟩⟩

theorem getPt_of_table (wf : WellFormed s root) (hh : HhdmOk s) (ht : follow (child s.mem) root (upper va) = some t) :
    getPt s (tableVirt s root) va = .ok (tableVirt s t, s) := by
  obtain ⟨q, hq, heq, hne⟩ := getPt_read wf.tablesOk ht
  rw [hq, heq (hne fun p x hx => tableVirt_ne_zero hh (wf.table_lt hx))]

/-- `get_pt` takes three blocks at most, and returns when there are as many. -/
theorem getPt_ok (va : Word) (wf : WellFormed s root) (hh : HhdmOk s) (h0 : 0 ∉ s.clear) (hcard : 3 ≤ s.clear.card) :
    ∃ t s', getPt s (tableVirt s root) va = .ok (tableVirt s t, s') ∧ tableVirt s t ≠ 0 ∧
      s.clear.card ≤ s'.clear.card + 3 := by
  obtain ⟨t₁, s₁, h₁, n₁, e₁, f₁, c₁⟩ := getLowerTable_ok (i := index va 39) (p := []) wf hh (by simp) rfl h0
    (Finset.card_pos.mp (by omega))
  obtain ⟨t₂, s₂, h₂, n₂, e₂, f₂, c₂⟩ := getLowerTable_ok (i := index va 30) e₁.wf (e₁.only.hhdmOk hh) (by simp) f₁
    (fun h => h0 (e₁.clear h)) (Finset.card_pos.mp (by omega))
  obtain ⟨t₃, s₃, h₃, n₃, e₃, f₃, c₃⟩ := getLowerTable_ok (i := index va 21) e₂.wf
    (e₂.only.hhdmOk (e₁.only.hhdmOk hh)) (by simp) f₂ (fun h => h0 (e₁.clear (e₂.clear h)))
    (Finset.card_pos.mp (by omega))
  rw [e₁.only.tableVirt, e₁.only.tableVirt] at h₂
  rw [e₁.only.tableVirt] at n₂
  rw [e₂.only.tableVirt, e₂.only.tableVirt, e₁.only.tableVirt, e₁.only.tableVirt] at h₃
  rw [e₂.only.tableVirt, e₁.only.tableVirt] at n₃
  refine ⟨t₃, s₃, ?_, n₃, by omega⟩
  simp only [getPt, index_eq, h₁, h₂, h₃, Loop.ok_bind, if_neg n₁, if_neg n₂, if_neg n₃]
  rfl

end

end Neobird64
