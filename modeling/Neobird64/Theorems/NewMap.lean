import Neobird64.Theorems.Tables
import Neobird64.Theorems.PmmRun

/-! The top-level table that `vmm_init` starts from: one block of the allocator, cleared, so it is the
    only table and translates nothing. -/

namespace Neobird64
open State Paging PathTree

/-- `s'` is `s` with the cleared block `n` as the top-level table of the kernel. -/
structure NewMap (s s' : State) (n : Nat) : Prop where
  block : n ∈ s.clear
  ne_zero : n ≠ 0
  only : OnlyMem { s with kernelPageMap := s'.kernelPageMap } s'
  pageMap : s'.kernelPageMap = tableVirt s' (n * 4096)
  wf : WellFormed s' (n * 4096)
  clear : s'.clear = s.clear.erase n
  tables : ∀ p t, Table s'.mem (n * 4096) p t ↔ p = [] ∧ t = n * 4096
  empty : ∀ va, leaf s'.mem (n * 4096) va = 0
  changed : ∀ a, s'.mem a ≠ s.mem a → s.Storage a ∨ a / 4096 = n

namespace NewMap
variable {s s' : State} {n : Nat} (h : NewMap s s' n)
include h

theorem memmap : s'.memmap = s.memmap := h.only.memmap
theorem pmmUsableAddr : s'.pmmUsableAddr = s.pmmUsableAddr := h.only.pmmUsableAddr
theorem pmmBlockCount : s'.pmmBlockCount = s.pmmBlockCount := h.only.pmmBlockCount
theorem pmmBitmap : s'.pmmBitmap = s.pmmBitmap := h.only.pmmBitmap
theorem hhdmoffset : s'.hhdmoffset = s.hhdmoffset := h.only.hhdmoffset
theorem cr3 : s'.cr3 = s.cr3 := h.only.cr3
theorem lapicAddr : s'.lapicAddr = s.lapicAddr := h.only.lapicAddr
theorem madt : s'.madt = s.madt := h.only.madt
theorem fadt : s'.fadt = s.fadt := h.only.fadt
theorem scanned : s'.scanned = s.scanned := h.only.scanned
theorem storage {a : Nat} : s'.Storage a ↔ s.Storage a := h.only.storage

theorem root : s'.root = n * 4096 := by
  have hlt := h.wf.table_lt table_nil
  rw [State.root, phys, h.pageMap, tableVirt, BitVec.add_sub_cancel, BitVec.toNat_ofNat]
  omega

end NewMap

/-- What the allocator must keep apart for its blocks to be used as tables. -/
structure PmmApart (s : State) : Prop where
  clearApart : ∀ n ∈ s.clear, ∀ a, a / 4096 = n → ¬s.Storage a
  count : s.pmmBlockCount.toNat ≤ 2 ^ 31

section
variable {s s' : State} {m : Memory} {root n t : Nat} {p : List (Fin 512)} {va : Word}

theorem PmmReady.apart {M : List MemmapEntry} (h : PmmReady M s) (hM : UsableOk M) : PmmApart s where
  clearApart _ hn _ ha := h.clearApart hM hn ha
  count := h.count_le hM

theorem PmmApart.scanned_le (h : PmmApart s) : s.scanned ≤ 2 ^ 31 := scanned_of_count h.count

/-! ### A cleared table -/

theorem follow_of_cleared (h : ∀ i, entry m root i = 0) (hp : p ≠ []) : follow (child m) root p = none := by
  cases p with
  | nil => exact absurd rfl hp
  | cons i p => rw [follow, child_of_not_present (by rw [h]; exact present_zero), Option.bind_none]

theorem table_of_cleared (h : ∀ i, entry m root i = 0) : Table m root p t ↔ p = [] ∧ t = root := by
  constructor
  · rintro ⟨-, ht⟩
    by_cases hp : p = []
    · rw [hp, follow_nil, Option.some.injEq] at ht
      exact ⟨hp, ht.symm⟩
    · rw [follow_of_cleared h hp] at ht
      cases ht
  · rintro ⟨rfl, rfl⟩
    exact table_nil

theorem pageTree_of_cleared (hr : root % 4096 = 0) (h : ∀ i, entry m root i = 0) : PageTree m root where
  aligned := hr
  unique p q x hp hq hpx hqx := by
    rw [((table_of_cleared h).mp ⟨hp, hpx⟩).1, ((table_of_cleared h).mp ⟨hq, hqx⟩).1]
  grants p t i hp ht hpr := by
    rw [((table_of_cleared h).mp ⟨hp.le, ht⟩).2, h] at hpr
    exact absurd hpr (by simp)

theorem leaf_of_cleared (h : ∀ i, entry m root i = 0) : leaf m root va = 0 :=
  leaf_of_none (follow_of_cleared h (by simp [upper]))

/-! ### The allocation -/

/-- The state in which `vmm_init` has its top-level table in block `n`. -/
def newMapState (s : State) (n : Nat) : State :=
  memset .hhdm { mmapSet s n with kernelPageMap := tableVirt s (n * 4096) } (tableVirt s (n * 4096)) 0 4096

theorem newPageMap_cases (ha : PmmApart s) (h : newPageMap s = .ok s') :
    ∃ n ∈ s.clear, n ≠ 0 ∧ s' = newMapState s n := by
  have hs := ha.scanned_le
  cases hl : FirstFit.least s.clear with
  | none =>
    rw [newPageMap, pmmAllocBlock_of_empty (FirstFit.least_eq_none.mp hl)] at h
    cases h
  | some n =>
    have hn := (FirstFit.least_eq_some.mp hl).1
    have hlt := (mem_clear.mp hn).1
    have hpage : PAGE_SIZE.toNat = 4096 := rfl
    simp only [newPageMap, pmmAllocBlock_of_least hs hl, hpage] at h
    split at h
    · cases h
    · rename_i hne
      rw [Except.ok.injEq] at h
      refine ⟨n, hn, fun h0 => hne ((blockAddr_eq_zero (by omega)).mpr h0), ?_⟩
      rw [← h, newMapState, tableVirt, blockAddr, (OnlyMem.mmapSet (s := s) (b := n)).hhdmoffset]
      rfl

/-- Block 0 would be taken first, and its address is NULL. -/
theorem zero_not_clear_of_newPageMap (ha : PmmApart s) (h : newPageMap s = .ok s') : 0 ∉ s.clear := by
  intro h0
  have hleast : FirstFit.least s.clear = some 0 := FirstFit.least_eq_some.mpr ⟨h0, fun k _ => Nat.zero_le k⟩
  have hnull : blockAddr 0 = 0 := rfl
  simp only [newPageMap, pmmAllocBlock_of_least ha.scanned_le hleast, hnull] at h
  cases h

theorem newPageMap_ok (ha : PmmApart s) (h0 : 0 ∉ s.clear) (hne : s.clear.Nonempty) : ∃ s', newPageMap s = .ok s' := by
  cases hl : FirstFit.least s.clear with
  | none => exact absurd (FirstFit.least_eq_none.mp hl) hne.ne_empty
  | some n =>
    have hn := (FirstFit.least_eq_some.mp hl).1
    have hlt := (mem_clear.mp hn).1
    have hs := ha.scanned_le
    have hn0 : blockAddr n ≠ 0 := fun h => h0 ((blockAddr_eq_zero (by omega)).mp h ▸ hn)
    simp only [newPageMap, pmmAllocBlock_of_least hs hl, if_neg hn0]
    exact ⟨_, rfl⟩

section
variable (ha : PmmApart s) (hn : n ∈ s.clear)
include ha hn

theorem mem_newMapState {a : Nat} :
    (newMapState s n).mem a = if a / 4096 = n then 0 else (mmapSet s n).mem a := by
  have hlt := (mem_clear.mp hn).1
  have hs := ha.scanned_le
  have hmem := mem_memset_hhdm (s := { mmapSet s n with kernelPageMap := tableVirt s (n * 4096) }) (f := n * 4096)
    (c := 0) (n := 4096) (a := a) (by omega)
  have hoff : BitVec.ofNat 64 (n * 4096) + ({ mmapSet s n with kernelPageMap := tableVirt s (n * 4096) } : State).hhdmoffset =
    tableVirt s (n * 4096) := rfl
  rw [hoff] at hmem
  rw [newMapState, hmem]
  exact if_congr (by omega) rfl rfl

theorem clear_newMapState : (newMapState s n).clear = s.clear.erase n := by
  have hlt := (mem_clear.mp hn).1
  have hs := ha.scanned_le
  have only : OnlyMem { mmapSet s n with kernelPageMap := tableVirt s (n * 4096) } (newMapState s n) := OnlyMem.memset
  have hclear : ({ mmapSet s n with kernelPageMap := tableVirt s (n * 4096) } : State).clear = (mmapSet s n).clear := rfl
  rw [only.clear, hclear, clear_mmapSet hs (by omega)]
  intro a hst
  have hst' : s.Storage a := hst
  rw [mem_newMapState ha hn, if_neg fun h => ha.clearApart n hn a h hst']

theorem entry_newMapState (i : Fin 512) : entry (newMapState s n).mem (n * 4096) i = 0 :=
  entry_zero fun a hlo hhi => by rw [mem_newMapState ha hn, if_pos (by omega)]

theorem newMap_newMapState (hn0 : n ≠ 0) : NewMap s (newMapState s n) n := by
  have hlt := (mem_clear.mp hn).1
  have hs := ha.scanned_le
  have only : OnlyMem { mmapSet s n with kernelPageMap := tableVirt s (n * 4096) } (newMapState s n) := OnlyMem.memset
  have hpm : (newMapState s n).kernelPageMap = tableVirt s (n * 4096) := only.kernelPageMap
  have only' : OnlyMem { s with kernelPageMap := (newMapState s n).kernelPageMap } (newMapState s n) := by
    have hset : OnlyMem { s with kernelPageMap := tableVirt s (n * 4096) }
      { mmapSet s n with kernelPageMap := tableVirt s (n * 4096) } := rfl
    rw [hpm]
    exact hset.trans only
  have hclear := clear_newMapState ha hn
  have hstore : ∀ {a}, (newMapState s n).Storage a ↔ s.Storage a := only.storage
  refine ⟨hn, hn0, only', ?_, ?_, hclear, fun p t => table_of_cleared (entry_newMapState ha hn),
    fun va => leaf_of_cleared (entry_newMapState ha hn), fun a hch => ?_⟩
  · rw [hpm, tableVirt, tableVirt, only'.hhdmoffset]
  · refine ⟨pageTree_of_cleared (by omega) (entry_newMapState ha hn), fun p t ht => ?_, fun p t ht a hlo hhi => ?_,
      fun k hk a hka => ?_, ?_⟩
    · obtain ⟨-, rfl⟩ := (table_of_cleared (entry_newMapState ha hn)).mp ht
      have hdiv : n * 4096 / 4096 = n := by omega
      have hscan : (newMapState s n).scanned = s.scanned := only.scanned
      rw [hdiv, hscan]
      refine ⟨hlt, ?_⟩
      cases hbit : (newMapState s n).bit n with
      | true => rfl
      | false =>
        have hmem : n ∈ (newMapState s n).clear := mem_clear.mpr ⟨by rw [hscan]; exact hlt, hbit⟩
        rw [hclear] at hmem
        exact absurd hmem (Finset.notMem_erase n _)
    · obtain ⟨-, rfl⟩ := (table_of_cleared (entry_newMapState ha hn)).mp ht
      rw [hstore]
      exact ha.clearApart n hn a (by omega)
    · rw [hclear] at hk
      rw [hstore]
      exact ha.clearApart k (Finset.mem_of_mem_erase hk) a hka
    · rw [only'.pmmBlockCount]
      exact ha.count
  · rw [mem_newMapState ha hn] at hch
    split at hch
    · exact Or.inr ‹_›
    · left
      by_contra hst
      exact hch (mem_mmapSet_of_not_storage hlt hst)

end

/-- `newPageMap` makes a well-formed page map that translates nothing. -/
theorem newPageMap_newMap (ha : PmmApart s) (h : newPageMap s = .ok s') : ∃ n, NewMap s s' n := by
  obtain ⟨n, hn, hn0, hs'⟩ := newPageMap_cases ha h
  exact ⟨n, hs' ▸ newMap_newMapState ha hn hn0⟩

end

/-! ### On a machine with 64 MiB -/

/-- The state in which `vmm_init` allocates its top-level table, and the one after. -/
theorem newMap_sample (mem : Memory) : ∃ s₀ s n, pmmInit (sampleBoot sampleMap) (entryState mem) = .ok s₀ ∧
    newPageMap { s₀ with hhdmoffset := (sampleBoot sampleMap).hhdm } = .ok s ∧
    NewMap { s₀ with hhdmoffset := (sampleBoot sampleMap).hhdm } s n ∧ HhdmOk s ∧ 0 ∉ s.clear ∧
    s.clear.card = 14079 := by
  obtain ⟨s₀, hinit⟩ := pmmInit_ok (b := sampleBoot sampleMap) sampleMap_like.ok rfl mem
  have ready := pmmInit_ready sampleMap_like.ok rfl hinit
  have hclear := sampleMap_like.clear ready
  have hclear' : ({ s₀ with hhdmoffset := (sampleBoot sampleMap).hhdm } : State).clear = Finset.Ico 2304 16384 := hclear
  have hap : PmmApart { s₀ with hhdmoffset := (sampleBoot sampleMap).hhdm } :=
    ⟨(ready.apart sampleMap_like.ok).clearApart, (ready.apart sampleMap_like.ok).count⟩
  obtain ⟨s, hs⟩ := newPageMap_ok hap (by rw [hclear']; simp) (by rw [hclear']; exact ⟨3000, by simp⟩)
  obtain ⟨n, hmap⟩ := newPageMap_newMap hap hs
  have hcard : s.clear.card = 14079 := by
    rw [hmap.clear, Finset.card_erase_of_mem hmap.block, hclear', Nat.card_Ico]
  refine ⟨s₀, s, n, hinit, hs, hmap, ?_, ?_, hcard⟩
  · have hoff : 0 < (sampleBoot sampleMap).hhdm.toNat ∧ (sampleBoot sampleMap).hhdm.toNat + 2 ^ 43 ≤ 2 ^ 64 := by
      decide
    rw [HhdmOk, hmap.hhdmoffset]
    exact hoff
  · rw [hmap.clear, hclear']
    simp

end Neobird64
