import Neobird64.Theorems.PmmInit

/-! Runs of the block allocator: any calls of `pmm_alloc_block` and `pmm_free_block` after `pmm_init`
    that free only what was returned and not yet freed. A clear bit stays a usable page that lies
    outside of the bitmap and is not outstanding. -/

namespace Neobird64
open State

/-- A state of the allocator after `pmm_init` and some calls, with the returned addresses that were not
    freed since. NULL results are listed too: freeing one does no harm. -/
inductive PmmRun (b : Boot) (mem : Memory) : State → List Word → Prop
  | init {s : State} (h : pmmInit b (entryState mem) = .ok s) : PmmRun b mem s []
  | alloc {s : State} {out : List Word} (h : PmmRun b mem s out) :
      PmmRun b mem (pmmAllocBlock s).2 ((pmmAllocBlock s).1 :: out)
  | free {s : State} {out : List Word} {addr : Word} (h : PmmRun b mem s out) (ha : addr ∈ out) :
      PmmRun b mem (pmmFreeBlock s addr) (out.erase addr)

/-- What holds between the bitmap and the outstanding addresses in every run. -/
structure PmmInv (M : List MemmapEntry) (s : State) (out : List Word) : Prop where
  addr : s.pmmUsableAddr = usableAddr M
  count : s.pmmBlockCount.toNat = blockCount M
  clear : ∀ n ∈ s.clear, n ≠ 0 → n ∈ usablePages M ∧ n ∉ markedBlocks M ∧ blockAddr n ∉ out
  handed : ∀ a ∈ out, a ≠ 0 → ∃ n, a = blockAddr n ∧ n < s.scanned ∧ n ∈ usablePages M ∧ n ∉ markedBlocks M
  once : ∀ a ∈ out, a ≠ 0 → out.count a = 1

namespace PmmInv
variable {M : List MemmapEntry} {s : State} {out : List Word} {addr : Word}

theorem scanned_le (h : PmmInv M s out) (hM : UsableOk M) : s.scanned ≤ 2 ^ 31 := by
  have := hM.bitmapSize_le
  rw [State.scanned, bitmapBytes_of_count h.count]
  omega

theorem init (h : PmmReady M s) : PmmInv M s [] where
  addr := h.addr
  count := h.count
  clear n hn _ := by
    obtain ⟨hlt, hbit⟩ := mem_clear.mp hn
    obtain ⟨hu, hm⟩ := (h.clear n hlt).mp hbit
    exact ⟨hu, hm, by simp⟩
  handed := by simp
  once := by simp

theorem alloc (h : PmmInv M s out) (hM : UsableOk M) : PmmInv M (pmmAllocBlock s).2 ((pmmAllocBlock s).1 :: out) := by
  have hs := h.scanned_le hM
  cases hl : FirstFit.least s.clear with
  | none =>
    rw [pmmAllocBlock_of_empty (FirstFit.least_eq_none.mp hl)]
    have hout : ∀ a ∈ (0 : Word) :: out, a ≠ 0 → a ∈ out := fun a ha hne => (List.mem_cons.mp ha).resolve_left hne
    refine ⟨h.addr, h.count, fun n hn hn0 => ?_, fun a ha hne => h.handed a (hout a ha hne) hne, fun a ha hne => ?_⟩
    · rw [FirstFit.least_eq_none.mp hl] at hn
      simp at hn
    · rw [List.count_cons_of_ne hne.symm]
      exact h.once a (hout a ha hne) hne
  | some n =>
    obtain ⟨hn, -⟩ := FirstFit.least_eq_some.mp hl
    have hlt := (mem_clear.mp hn).1
    have hclear := clear_mmapSet hs (show n < 2 ^ 64 by omega)
    have hne0 : blockAddr n ≠ 0 → n ≠ 0 := fun hne h0 => hne ((blockAddr_eq_zero (by omega)).mpr h0)
    simp only [pmmAllocBlock_of_least hs hl]
    refine ⟨h.addr, h.count, fun m hm hm0 => ?_, fun a ha hne => ?_, fun a ha hne => ?_⟩
    · rw [hclear, Finset.mem_erase] at hm
      obtain ⟨hu, hmk, hout⟩ := h.clear m hm.2 hm0
      have hm' := (mem_clear.mp hm.2).1
      refine ⟨hu, hmk, fun hmem => (List.mem_cons.mp hmem).elim (fun he => hm.1 ?_) hout⟩
      exact blockAddr_inj (by omega) (by omega) he
    · rcases List.mem_cons.mp ha with rfl | ha
      · obtain ⟨hu, hmk, -⟩ := h.clear n hn (hne0 hne)
        exact ⟨n, rfl, hlt, hu, hmk⟩
      · exact h.handed a ha hne
    · rcases List.mem_cons.mp ha with rfl | ha
      · obtain ⟨-, -, hout⟩ := h.clear n hn (hne0 hne)
        rw [List.count_cons_self, List.count_eq_zero_of_not_mem hout]
      · rw [List.count_cons_of_ne, h.once a ha hne]
        rintro rfl
        exact (h.clear n hn (hne0 hne)).2.2 ha

theorem free (h : PmmInv M s out) (hM : UsableOk M) (ha : addr ∈ out) :
    PmmInv M (pmmFreeBlock s addr) (out.erase addr) := by
  have hs := h.scanned_le hM
  -- Freeing block `n`, which may be 0 for a NULL result.
  obtain ⟨n, rfl, hn⟩ : ∃ n, addr = blockAddr n ∧ n < 2 ^ 31 := by
    by_cases h0 : addr = 0
    · exact ⟨0, h0, by omega⟩
    · obtain ⟨n, hn, hlt, -⟩ := h.handed addr ha h0
      exact ⟨n, hn, by omega⟩
  have hmem : ∀ a, a ∈ out.erase (blockAddr n) → a ∈ out := fun a => List.mem_of_mem_erase
  rw [pmmFreeBlock_blockAddr hn]
  refine ⟨h.addr, h.count, fun m hm hm0 => ?_, fun a ha' hne => ?_, fun a ha' hne => ?_⟩
  · obtain ⟨hlt, hbit⟩ := mem_clear.mp hm
    rw [OnlyMem.mmapUnset.scanned] at hlt
    rw [bit_mmapUnset (by omega) (by omega)] at hbit
    by_cases hmn : m = n
    · subst hmn
      have hne : blockAddr m ≠ 0 := fun he => hm0 ((blockAddr_eq_zero (by omega)).mp he)
      obtain ⟨k, hk, -, hu, hmk⟩ := h.handed _ ha hne
      have hklt := hM.lt_of_mem hu
      obtain rfl : m = k := blockAddr_inj (by omega) (by omega) hk
      refine ⟨hu, hmk, ?_⟩
      rw [← List.count_eq_zero, List.count_erase_self, h.once _ ha hne]
    · have hm' : m ∈ s.clear := mem_clear.mpr ⟨hlt, by simpa [hmn] using hbit⟩
      obtain ⟨hu, hmk, hout⟩ := h.clear m hm' hm0
      exact ⟨hu, hmk, fun hx => hout (hmem _ hx)⟩
  · exact h.handed a (hmem a ha') hne
  · have hone := h.once a (hmem a ha') hne
    have hpos := List.count_pos_iff.mpr ha'
    have hle := (List.erase_sublist (a := blockAddr n) (l := out)).count_le a
    omega

end PmmInv

section
variable {M : List MemmapEntry} {b : Boot} {mem : Memory} {s : State} {out : List Word}

theorem PmmRun.inv (hM : UsableOk M) (hb : b.memmap = some M) (h : PmmRun b mem s out) : PmmInv M s out := by
  induction h with
  | init h => exact PmmInv.init (pmmInit_ready hM hb h)
  | alloc _ ih => exact ih.alloc hM
  | free _ ha ih => exact ih.free hM ha

theorem not_storage_of_not_marked (hM : UsableOk M) {n x : Nat} (hn : n ∉ markedBlocks M) (hx : x / 4096 = n) :
    ¬((usableAddr M).toNat ≤ x ∧ x < (usableAddr M).toNat + bitmapSize M) := by
  have hal := hM.usableAddr_ok.1
  rw [mem_markedBlocks, bitmapBlock] at hn
  omega

theorem PmmReady.storage_iff (h : PmmReady M s) (hM : UsableOk M) {a : Nat} :
    s.Storage a ↔ (usableAddr M).toNat ≤ a ∧ a < (usableAddr M).toNat + bitmapSize M := by
  have haddr := hM.usableAddr_ok.2
  have hB := hM.bitmapSize_le
  have hbyte : ∀ i < bitmapSize M, s.bitmapAddr i = (usableAddr M).toNat + i := fun i hi => by
    rw [bitmapAddr, h.bitmap, BitVec.toNat_add, BitVec.toNat_ofNat]
    omega
  rw [Storage, bitmapBytes_of_count h.count]
  constructor
  · rintro ⟨i, hi, rfl⟩
    rw [hbyte i hi]
    omega
  · intro ha
    exact ⟨a - (usableAddr M).toNat, by omega, by rw [hbyte _ (by omega)]; omega⟩

theorem PmmReady.clearApart (h : PmmReady M s) (hM : UsableOk M) {n : Nat} (hn : n ∈ s.clear) {a : Nat}
    (ha : a / 4096 = n) : ¬s.Storage a := by
  obtain ⟨hlt, hbit⟩ := mem_clear.mp hn
  rw [h.storage_iff hM]
  exact not_storage_of_not_marked hM ((h.clear n hlt).mp hbit).2 ha

theorem PmmReady.count_le (h : PmmReady M s) (hM : UsableOk M) : s.pmmBlockCount.toNat ≤ 2 ^ 31 := by
  rw [h.count, hM.blockCount_eq]
  exact hM.card_le

/-- `addr` is a whole page of a usable entry, outside of the bitmap and not the page of an outstanding
    address. -/
structure FreshPage (M : List MemmapEntry) (s : State) (out : List Word) (addr : Word) : Prop where
  aligned : addr.toNat % 4096 = 0
  usable : ∃ e ∈ M, e.type = .usable ∧ ∀ x, addr.toNat ≤ x → x < addr.toNat + 4096 → e.Holds x
  apart : ∀ x, addr.toNat ≤ x → x < addr.toNat + 4096 →
    ¬(s.pmmUsableAddr.toNat ≤ x ∧ x < s.pmmUsableAddr.toNat + s.pmmBlockCount.toNat / 8)
  fresh : ∀ a ∈ out, a.toNat / 4096 ≠ addr.toNat / 4096

/-- Every non-NULL address that `pmm_alloc_block` returns in a run is a fresh page. -/
theorem pmmAllocBlock_freshPage (hM : UsableOk M) (hb : b.memmap = some M) (h : PmmRun b mem s out)
    (hne : (pmmAllocBlock s).1 ≠ 0) : FreshPage M s out (pmmAllocBlock s).1 := by
  have inv := h.inv hM hb
  have hs := inv.scanned_le hM
  cases hl : FirstFit.least s.clear with
  | none =>
    rw [pmmAllocBlock_of_empty (FirstFit.least_eq_none.mp hl)] at hne
    exact absurd rfl hne
  | some n =>
    obtain ⟨hn, -⟩ := FirstFit.least_eq_some.mp hl
    have hlt := (mem_clear.mp hn).1
    rw [pmmAllocBlock_of_least hs hl] at hne ⊢
    have hn0 : n ≠ 0 := fun h0 => hne ((blockAddr_eq_zero (by omega)).mpr h0)
    obtain ⟨hu, hmk, hout⟩ := inv.clear n hn hn0
    obtain ⟨e, he, heu, hpage⟩ := mem_usablePages.mp hu
    have haddr : (blockAddr n).toNat = n * 4096 := blockAddr_toNat (by omega)
    constructor <;> simp only [haddr]
    · omega
    · exact ⟨e, he, heu, fun x hx hx' => hM.holds_of_mem he heu hpage (by omega)⟩
    · intro x hx hx'
      rw [inv.addr, inv.count]
      exact not_storage_of_not_marked hM hmk (by omega)
    · intro a ha hpg
      by_cases ha0 : a = 0
      · rw [ha0] at hpg
        simp at hpg
        omega
      · obtain ⟨m, rfl, hm, hmu, -⟩ := inv.handed a ha ha0
        rw [blockAddr_toNat (by omega)] at hpg
        obtain rfl : m = n := by omega
        exact hout ha

end

/-! ### On a machine with 64 MiB -/

theorem LikeSample.clear {M : List MemmapEntry} {s : State} (like : LikeSample M) (h : PmmReady M s) :
    s.clear = Finset.Ico 2304 16384 := by
  have hscan : s.scanned = 16384 := by rw [scanned, bitmapBytes_of_count h.count, like.size]
  ext n
  rw [mem_clear, hscan, Finset.mem_Ico]
  constructor
  · rintro ⟨hn, hbit⟩
    obtain ⟨hu, hm⟩ := (h.clear n (by rw [hscan]; exact hn)).mp hbit
    rw [like.pages, Finset.mem_Ico] at hu
    rw [mem_markedBlocks, like.size, like.block] at hm
    omega
  · rintro ⟨hlo, hhi⟩
    refine ⟨hhi, (h.clear n (by rw [hscan]; exact hhi)).mpr ?_⟩
    rw [like.pages, Finset.mem_Ico, mem_markedBlocks, like.size, like.block]
    omega

/-- Two calls take the blocks 2304 and 2305; the first is given back and handed out again. -/
theorem pmmAllocBlock_freshPage_sample : ∃ s s₁ s₂, pmmInit (sampleBoot sampleMap) (entryState fun _ => 0) = .ok s ∧
    pmmAllocBlock s = (0x900000, s₁) ∧ pmmAllocBlock s₁ = (0x901000, s₂) ∧
    PmmRun (sampleBoot sampleMap) (fun _ => 0) (pmmFreeBlock s₂ 0x900000) [0x901000] ∧
    (pmmAllocBlock (pmmFreeBlock s₂ 0x900000)).1 = 0x900000 ∧
    FreshPage sampleMap (pmmFreeBlock s₂ 0x900000) [0x901000] (pmmAllocBlock (pmmFreeBlock s₂ 0x900000)).1 := by
  have like := sampleMap_like
  obtain ⟨s, hinit⟩ := pmmInit_ok (b := sampleBoot sampleMap) like.ok rfl fun _ => 0
  have ready := pmmInit_ready like.ok rfl hinit
  have hscan : s.scanned = 16384 := by rw [scanned, bitmapBytes_of_count ready.count, like.size]
  obtain ⟨s₁, hs₁⟩ : ∃ s₁, s₁ = mmapSet s (2304 : Nat) := ⟨_, rfl⟩
  obtain ⟨s₂, hs₂⟩ : ∃ s₂, s₂ = mmapSet s₁ (2305 : Nat) := ⟨_, rfl⟩
  have hscan₁ : s₁.scanned = 16384 := by rw [hs₁, OnlyMem.mmapSet.scanned, hscan]
  have hscan₂ : s₂.scanned = 16384 := by rw [hs₂, OnlyMem.mmapSet.scanned, hscan₁]
  have hclear₁ : s₁.clear = (Finset.Ico 2304 16384).erase 2304 := by
    rw [hs₁, clear_mmapSet (by omega) (by omega), like.clear ready]
  have hclear₂ : s₂.clear = ((Finset.Ico 2304 16384).erase 2304).erase 2305 := by
    rw [hs₂, clear_mmapSet (by omega) (by omega), hclear₁]
  have hfirst : pmmAllocBlock s = (0x900000, s₁) := by
    rw [hs₁]
    refine pmmAllocBlock_of_least (n := 2304) (by omega) (FirstFit.least_eq_some.mpr ⟨?_, fun k hk => ?_⟩)
    · rw [like.clear ready, Finset.mem_Ico]
      omega
    · rw [like.clear ready, Finset.mem_Ico] at hk
      exact hk.1
  have hsecond : pmmAllocBlock s₁ = (0x901000, s₂) := by
    rw [hs₂]
    refine pmmAllocBlock_of_least (n := 2305) (by omega) (FirstFit.least_eq_some.mpr ⟨?_, fun k hk => ?_⟩)
    · rw [hclear₁, Finset.mem_erase, Finset.mem_Ico]
      omega
    · rw [hclear₁, Finset.mem_erase, Finset.mem_Ico] at hk
      omega
  have hagain : (pmmAllocBlock (pmmFreeBlock s₂ 0x900000)).1 = 0x900000 := by
    have hfree : pmmFreeBlock s₂ 0x900000 = mmapUnset s₂ (2304 : Nat) := pmmFreeBlock_blockAddr (n := 2304) (by omega)
    have hclear : (mmapUnset s₂ (2304 : Nat)).clear = insert 2304 (((Finset.Ico 2304 16384).erase 2304).erase 2305) := by
      rw [clear_mmapUnset (by omega) (by omega), hclear₂]
    have hleast : FirstFit.least (mmapUnset s₂ (2304 : Nat)).clear = some 2304 := by
      refine FirstFit.least_eq_some.mpr ⟨?_, fun k hk => ?_⟩
      · rw [hclear]
        exact Finset.mem_insert_self _ _
      · rw [hclear, Finset.mem_insert, Finset.mem_erase, Finset.mem_erase, Finset.mem_Ico] at hk
        omega
    rw [hfree, pmmAllocBlock_of_least (by rw [OnlyMem.mmapUnset.scanned]; omega) hleast]
    rfl
  have hrun : PmmRun (sampleBoot sampleMap) (fun _ => 0) (pmmFreeBlock s₂ 0x900000) [0x901000] := by
    have halloc := (PmmRun.init hinit).alloc.alloc
    rw [hfirst, hsecond] at halloc
    have hfreed := halloc.free (show (0x900000 : Word) ∈ _ by simp)
    rwa [List.erase_cons_tail (by simp), List.erase_cons_head] at hfreed
  exact ⟨s, s₁, s₂, hinit, hfirst, hsecond, hrun, hagain,
    pmmAllocBlock_freshPage like.ok rfl hrun (by rw [hagain]; decide)⟩

end Neobird64
