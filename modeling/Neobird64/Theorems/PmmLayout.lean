import Neobird64.Theorems.PmmRun

/-! Where `pmm_init` puts its bitmap, and what that costs. The bitmap has one bit for each usable page
    but is indexed by physical block, it starts at the first usable entry whatever the length of that
    entry, and the blocks marked for it are as many as it has bytes. For each of the three, the memory
    maps on which it does no harm. -/

namespace Neobird64
open State

/-! ### The storage of the bitmap -/

section
variable {M : List MemmapEntry} {b : Boot} {mem : Memory} {s : State} {a : Nat}

/-- The storage of the bitmap, [`pmm_usable_addr`, `pmm_usable_addr + pmm_block_count/8`), lies in a
    single usable entry. -/
def BitmapInEntry (M : List MemmapEntry) (s : State) : Prop :=
  ∃ e ∈ M, e.type = .usable ∧
    ∀ a, s.pmmUsableAddr.toNat ≤ a → a < s.pmmUsableAddr.toNat + s.pmmBlockCount.toNat / 8 → e.Holds a

theorem bitmapSize_eq (M : List MemmapEntry) : bitmapSize M = usableBytes M / 32768 := by
  rw [bitmapSize, blockCount]
  omega

theorem usableAddr_of_find {f : MemmapEntry} (h : M.find? (fun e => e.type = .usable) = some f) :
    usableAddr M = f.base := by
  rw [usableAddr, h]
  rfl

/-- An interval of addresses from `u` on fits in an entry when its ends do. -/
theorem holds_interval {e : MemmapEntry} {u B : Nat} (hB : 0 < B) :
    (∀ a, u ≤ a → a < u + B → e.Holds a) ↔ e.base.toNat ≤ u ∧ u + B ≤ e.base.toNat + e.length.toNat := by
  constructor
  · intro h
    have h1 := h u le_rfl (by omega)
    have h2 := h (u + B - 1) (by omega) (by omega)
    rw [MemmapEntry.Holds] at h1 h2
    omega
  · intro h a ha ha'
    rw [MemmapEntry.Holds]
    omega

theorem bitmapInEntry_congr (hb : b.memmap = some M) (h : pmmInit b (entryState mem) = .ok s) :
    BitmapInEntry M s ↔ ∃ e ∈ M, e.type = .usable ∧
      ∀ a, (usableAddr M).toNat ≤ a → a < (usableAddr M).toNat + usableBytes M / 32768 → e.Holds a := by
  rw [BitmapInEntry, pmmInit_usableAddr hb h, pmmInit_count hb h, ← bitmapSize, bitmapSize_eq]

/-- The bytes that the `memset` of `pmm_init` changes belong to the entry that contains the bitmap. -/
theorem pmmFilled_mem {e : MemmapEntry} (he : e.base.toNat + e.length.toNat ≤ 2 ^ 64)
    (h : ∀ a, (usableAddr M).toNat ≤ a → a < (usableAddr M).toNat + usableBytes M / 32768 → e.Holds a)
    (ha : (pmmFilled M mem).mem a ≠ mem a) : e.Holds a := by
  rw [pmmFilled, mem_memset] at ha
  split at ha
  · rename_i hi
    obtain ⟨i, hi, rfl⟩ := hi
    rw [bitmapBytes_of_count pmmLayout_count, bitmapSize_eq] at hi
    have hend := h ((usableAddr M).toNat + i) (by omega) (by omega)
    rw [MemmapEntry.Holds] at hend
    have hphys : (pmmLayout M (entryState mem)).phys .identity
        ((pmmLayout M (entryState mem)).pmmBitmap + BitVec.ofNat 64 i) = (usableAddr M).toNat + i := by
      rw [phys, pmmLayout_bitmap, BitVec.toNat_add, BitVec.toNat_ofNat]
      omega
    rw [hphys]
    exact hend
  · exact absurd rfl ha

/-- The bitmap lies in one usable entry exactly when the first usable entry is long enough for it, or
    when another one that contains its base reaches far enough; then the `memset` stays in that entry. -/
theorem bitmapInEntry_iff (hb : b.memmap = some M) (h : pmmInit b (entryState mem) = .ok s) :
    (BitmapInEntry M s ↔ ∃ f, M.find? (fun e => e.type = .usable) = some f ∧
      (usableBytes M / 32768 ≤ f.length.toNat ∨ ∃ e ∈ M, e.type = .usable ∧ e.base.toNat ≤ f.base.toNat ∧
        f.base.toNat + usableBytes M / 32768 ≤ e.base.toNat + e.length.toNat)) ∧
    (BitmapInEntry M s → (∀ e ∈ M, e.type = .usable → e.base.toNat + e.length.toNat ≤ 2 ^ 64) →
      ∀ a, (pmmFilled M mem).mem a ≠ mem a → ∃ e ∈ M, e.type = .usable ∧ e.Holds a) := by
  rw [bitmapInEntry_congr hb h]
  refine ⟨⟨?_, ?_⟩, ?_⟩
  · rintro ⟨e, he, hu, hin⟩
    cases hf : M.find? fun e => e.type = .usable with
    | none => exact absurd (List.find?_eq_none.mp hf e he) (by simp [hu])
    | some f =>
      refine ⟨f, rfl, ?_⟩
      rw [usableAddr_of_find hf] at hin
      rcases Nat.eq_zero_or_pos (usableBytes M / 32768) with hB | hB
      · exact Or.inl (by omega)
      · exact Or.inr ⟨e, he, hu, (holds_interval hB).mp hin⟩
  · rintro ⟨f, hf, hcase⟩
    rw [usableAddr_of_find hf]
    rcases hcase with hlen | ⟨e, he, hu, hlo, hhi⟩
    · refine ⟨f, List.mem_of_find?_eq_some hf, by simpa using List.find?_some hf, fun a ha ha' => ?_⟩
      rw [MemmapEntry.Holds]
      omega
    · refine ⟨e, he, hu, fun a ha ha' => ?_⟩
      rw [MemmapEntry.Holds]
      omega
  · rintro ⟨e, he, hu, hin⟩ hlt a ha
    exact ⟨e, he, hu, pmmFilled_mem (hlt e he hu) hin ha⟩

end

/-- One usable page in low memory, and 256 MiB above the first MiB. -/
def lowPageMap : List MemmapEntry := [⟨0x1000, 0x1000, .usable⟩, ⟨0x100000, 0x10000000, .usable⟩]

theorem lowPageMap_ok : UsableOk lowPageMap where
  aligned := by decide
  below := by decide
  disjoint := by
    refine List.pairwise_pair.mpr fun _ _ a => ?_
    have h1 : (0x1000 : Word).toNat = 4096 := rfl
    have h2 : (0x100000 : Word).toNat = 1048576 := rfl
    simp only [MemmapEntry.Holds, h1, h2]
    omega

/-- On a machine with one usable entry the bitmap lies in it, and the `memset` changes nothing else. -/
theorem bitmapInEntry_sample : ∃ s, pmmInit (sampleBoot sampleMap) (entryState fun _ => 0) = .ok s ∧ BitmapInEntry sampleMap s ∧
    ∀ a, (pmmFilled sampleMap fun _ => 0).mem a ≠ 0 → ∃ e ∈ sampleMap, e.type = .usable ∧ e.Holds a := by
  obtain ⟨s, hinit⟩ := pmmInit_ok (b := sampleBoot sampleMap) sampleMap_like.ok rfl fun _ => 0
  obtain ⟨hiff, hfilled⟩ := bitmapInEntry_iff rfl hinit
  have hin := hiff.mpr ⟨_, rfl, Or.inl (by decide)⟩
  exact ⟨s, hinit, hin, hfilled hin (by decide)⟩

/-- The bitmap of 8 KiB starts at the page at 0x1000 and runs over the page after it, which is not
    usable: the `memset` overwrites it. -/
theorem bitmap_runs_over : ∃ s, pmmInit (sampleBoot lowPageMap) (entryState fun _ => 0) = .ok s ∧
    ¬BitmapInEntry lowPageMap s ∧ (∀ e ∈ lowPageMap, e.type = .usable → ¬e.Holds 0x2000) ∧
    (pmmFilled lowPageMap fun _ => 0).mem 0x2000 = 0xff := by
  obtain ⟨s, hinit⟩ := pmmInit_ok (b := sampleBoot lowPageMap) lowPageMap_ok rfl fun _ => 0
  have hout : ∀ e ∈ lowPageMap, e.type = .usable → ¬e.Holds 0x2000 := by
    simp [lowPageMap, MemmapEntry.Holds]
  have haddr : (usableAddr lowPageMap).toNat = 4096 := by decide
  have hsize : bitmapSize lowPageMap = 8192 := by decide
  refine ⟨_, hinit, ?_, hout, ?_⟩
  · rw [bitmapInEntry_congr rfl hinit, ← bitmapSize_eq, haddr, hsize]
    rintro ⟨e, he, hu, hin⟩
    exact hout e he hu (hin 0x2000 (by omega) (by omega))
  · rw [pmmFilled, mem_memset, if_pos]
    refine ⟨4096, by rw [bitmapBytes_of_count pmmLayout_count, hsize]; omega, ?_⟩
    rw [phys, pmmLayout_bitmap]
    rfl

/-! ### The pages that are lost -/

/-- The usable pages that do not overlap the storage of the bitmap. -/
def apartPages (M : List MemmapEntry) : Finset Nat := (usablePages M).filter fun n =>
  4096 * n + 4096 ≤ (usableAddr M).toNat ∨ (usableAddr M).toNat + bitmapSize M ≤ 4096 * n

/-- Calling `pmm_alloc_block` until it returns NULL hands out the addresses `l`. -/
inductive AllocUntilNull : State → List Word → Prop
  | stop {s : State} (h : (pmmAllocBlock s).1 = 0) : AllocUntilNull s []
  | next {s : State} {l : List Word} (h : (pmmAllocBlock s).1 ≠ 0) (hl : AllocUntilNull (pmmAllocBlock s).2 l) :
      AllocUntilNull s ((pmmAllocBlock s).1 :: l)

/-- Every usable page apart from the bitmap can be allocated: its bit is clear and scanned, and calling
    `pmm_alloc_block` until it fails returns each of them, other than block 0, once. -/
structure NothingLost (M : List MemmapEntry) (s : State) : Prop where
  clear : ∀ n ∈ apartPages M, n < s.scanned ∧ s.bit n = false
  once : ∃ l, AllocUntilNull s l ∧ ∀ n ∈ apartPages M, n ≠ 0 → l.count (blockAddr n) = 1

section
variable {M : List MemmapEntry} {b : Boot} {mem : Memory} {s : State} {n : Nat}

/-- The run up to the first NULL drains the first-fit allocator, unless block 0 is clear. -/
theorem allocUntilNull_drain : ∀ {n : Nat} {s : State}, s.scanned ≤ 2 ^ 31 → 0 ∉ s.clear → s.clear.card ≤ n →
    AllocUntilNull s ((FirstFit.drain n s.clear).map blockAddr)
  | 0, s, _, _, hcard => by
    have hempty := Finset.card_eq_zero.mp (Nat.le_zero.mp hcard)
    exact .stop (by rw [pmmAllocBlock_of_empty hempty])
  | n + 1, s, hs, h0, hcard => by
    rw [FirstFit.drain]
    cases hl : FirstFit.least s.clear with
    | none => exact .stop (by rw [pmmAllocBlock_of_empty (FirstFit.least_eq_none.mp hl)])
    | some k =>
      obtain ⟨hk, -⟩ := FirstFit.least_eq_some.mp hl
      have hlt := (mem_clear.mp hk).1
      have hk0 : k ≠ 0 := fun h => h0 (h ▸ hk)
      have halloc := pmmAllocBlock_of_least hs hl
      have hclear : (pmmAllocBlock s).2.clear = s.clear.erase k := by
        rw [halloc]
        exact clear_mmapSet hs (by omega)
      have hne : (pmmAllocBlock s).1 ≠ 0 := by
        rw [halloc, Ne, blockAddr_eq_zero (by omega)]
        exact hk0
      have haddr : (pmmAllocBlock s).1 = blockAddr k := by rw [halloc]
      have hcard' := Finset.card_erase_add_one hk
      have ih := allocUntilNull_drain (n := n) (s := (pmmAllocBlock s).2) (by rw [halloc]; exact hs)
        (by rw [hclear]; exact fun h => h0 (Finset.mem_of_mem_erase h)) (by rw [hclear]; omega)
      rw [hclear] at ih
      rw [List.map_cons, ← haddr]
      exact .next hne ih

theorem count_map_blockAddr {l : List Nat} (hl : l.Nodup) (hlt : ∀ k ∈ l, k < 2 ^ 52) (hn : n ∈ l) :
    (l.map blockAddr).count (blockAddr n) = 1 := by
  refine List.count_eq_one_of_mem ?_ (List.mem_map_of_mem hn)
  exact hl.map_on fun x hx y hy h => blockAddr_inj (hlt x hx) (hlt y hy) h

theorem mem_apartPages : n ∈ apartPages M ↔ n ∈ usablePages M ∧
    (4096 * n + 4096 ≤ (usableAddr M).toNat ∨ (usableAddr M).toNat + bitmapSize M ≤ 4096 * n) := by
  rw [apartPages, Finset.mem_filter]

/-- The block 0 is the least one, and its address is NULL. -/
theorem pmmAllocBlock_null (hs : s.scanned ≤ 2 ^ 31) (h0 : 0 ∈ s.clear) : (pmmAllocBlock s).1 = 0 := by
  have hleast : FirstFit.least s.clear = some 0 := FirstFit.least_eq_some.mpr ⟨h0, fun k _ => Nat.zero_le k⟩
  rw [pmmAllocBlock_of_least hs hleast]
  rfl

/-- No usable page is lost exactly when the pages apart from the bitmap lie below the end of the
    bitmap's range and outside of the blocks marked for it, and page 0 is not the first of several. -/
theorem nothingLost_iff (hM : UsableOk M) (hb : b.memmap = some M) (h : pmmInit b (entryState mem) = .ok s) :
    NothingLost M s ↔
      (∀ n ∈ apartPages M, n < 8 * (blockCount M / 8) ∧
        ¬(bitmapBlock M ≤ n ∧ n < bitmapBlock M + blockCount M / 8)) ∧
      (0 ∈ apartPages M → apartPages M = {0}) := by
  have ready := pmmInit_ready hM hb h
  have hs := (PmmInv.init ready).scanned_le hM
  have hscan : s.scanned = 8 * (blockCount M / 8) := by rw [scanned, bitmapBytes_of_count ready.count, bitmapSize]
  have hclear : ∀ n ∈ apartPages M, (n < s.scanned ∧ s.bit n = false ↔
      n < 8 * (blockCount M / 8) ∧ ¬(bitmapBlock M ≤ n ∧ n < bitmapBlock M + blockCount M / 8)) := by
    intro n hn
    rw [hscan, ← bitmapSize, ← mem_markedBlocks]
    refine and_congr_right fun hlt => ?_
    rw [ready.clear n (by rw [hscan]; exact hlt)]
    exact and_iff_right (mem_apartPages.mp hn).1
  constructor
  · rintro ⟨hbits, l, hrun, hcount⟩
    refine ⟨fun n hn => (hclear n hn).mp (hbits n hn), fun h0 => ?_⟩
    -- Block 0 is the least clear block, so the first call already returns NULL.
    have hnull := pmmAllocBlock_null hs (mem_clear.mpr (hbits 0 h0))
    refine Finset.eq_singleton_iff_unique_mem.mpr ⟨h0, fun n hn => ?_⟩
    by_contra hn0
    cases hrun with
    | stop _ => exact absurd (hcount n hn hn0) (by simp)
    | next hne _ => exact hne hnull
  · rintro ⟨hcond, hzero⟩
    refine ⟨fun n hn => (hclear n hn).mpr (hcond n hn), ?_⟩
    by_cases h0 : 0 ∈ apartPages M
    · have hnull := pmmAllocBlock_null hs (mem_clear.mpr ((hclear 0 h0).mpr (hcond 0 h0)))
      refine ⟨[], .stop hnull, fun n hn hn0 => ?_⟩
      rw [hzero h0, Finset.mem_singleton] at hn
      exact absurd hn hn0
    · have hnot : 0 ∉ s.clear := fun hmem => by
        obtain ⟨hlt, hbit⟩ := mem_clear.mp hmem
        obtain ⟨hu, hmk⟩ := (ready.clear 0 hlt).mp hbit
        rw [mem_markedBlocks, bitmapBlock, bitmapSize] at hmk
        exact h0 (mem_apartPages.mpr ⟨hu, by omega⟩)
      refine ⟨_, allocUntilNull_drain hs hnot le_rfl, fun n hn _ => ?_⟩
      rw [FirstFit.drain_eq_sort le_rfl]
      refine count_map_blockAddr (Finset.sort_nodup _ _) (fun k hk => ?_) ?_
      · have := (mem_clear.mp ((Finset.mem_sort _).mp hk)).1
        omega
      · exact (Finset.mem_sort _).mpr (mem_clear.mpr ((hclear n hn).mpr (hcond n hn)))

end

/-- The first 8 pages of memory. -/
def firstPages : List MemmapEntry := [⟨0, 0x8000, .usable⟩]

theorem firstPages_ok : UsableOk firstPages := UsableOk.single (by decide) (by decide) (by decide)

theorem usablePages_firstPages : usablePages firstPages = Finset.range 8 :=
  usablePages_single.trans (Finset.range_eq_Ico 8).symm

theorem nothingLost_sample : ∃ s, pmmInit (sampleBoot firstPages) (entryState fun _ => 0) = .ok s ∧ NothingLost firstPages s := by
  obtain ⟨s, hinit⟩ := pmmInit_ok (b := sampleBoot firstPages) firstPages_ok rfl fun _ => 0
  have haddr : (usableAddr firstPages).toNat = 0 := by decide
  have hcount : blockCount firstPages = 8 := by decide
  have hapart : ∀ n ∈ apartPages firstPages, 1 ≤ n ∧ n < 8 := fun n hn => by
    obtain ⟨hpage, hout⟩ := mem_apartPages.mp hn
    rw [usablePages_firstPages, Finset.mem_range] at hpage
    rw [haddr, bitmapSize, hcount] at hout
    omega
  refine ⟨s, hinit, (nothingLost_iff firstPages_ok rfl hinit).mpr ⟨fun n hn => ?_, fun h0 => ?_⟩⟩
  · have hn' := hapart n hn
    rw [bitmapBlock, haddr, hcount]
    omega
  · exact absurd (hapart 0 h0).1 (by omega)

/-- The page at block 300 of `sampleMap` is usable and no part of the bitmap, which takes half a page at
    block 256; yet it is one of the 2048 blocks marked for the bitmap. -/
theorem marked_page_lost : ∃ s, pmmInit (sampleBoot sampleMap) (entryState fun _ => 0) = .ok s ∧
    ¬NothingLost sampleMap s := by
  obtain ⟨s, hinit⟩ := pmmInit_ok (b := sampleBoot sampleMap) sampleMap_like.ok rfl fun _ => 0
  have like := sampleMap_like
  have haddr : (usableAddr sampleMap).toNat = 1048576 := by decide
  refine ⟨_, hinit, fun ⟨hbits, _⟩ => ?_⟩
  obtain ⟨hlt, hbit⟩ := hbits 300 (mem_apartPages.mpr ⟨by simp [like.pages], by rw [haddr, like.size]; omega⟩)
  have hmarked := (((pmmInit_ready like.ok rfl hinit).clear 300 hlt).mp hbit).2
  rw [mem_markedBlocks, like.size, like.block] at hmarked
  omega

/-! ### The bits that are touched -/

/-- The arguments of the calls of `mmap_unset` by `pmm_init`, in order. -/
def clearedBits (M : List MemmapEntry) : List Int := (usableBlocks M).map fun (n : Nat) => (n : Int)

/-- The arguments of the calls of `mmap_set` by `pmm_init`, in order. -/
def markedBits (M : List MemmapEntry) : List Int :=
  (List.range (bitmapSize M)).map fun i => toInt (addr2block (usableAddr M) + BitVec.ofNat 64 i)

/-- `pmm_init` touches the bitmap at bytes that exist only, and changes no other byte. -/
structure StaysInBitmap (b : Boot) (M : List MemmapEntry) : Prop where
  index : ∀ bit ∈ clearedBits M ++ markedBits M, 0 ≤ bit.tdiv 8 ∧ bit.tdiv 8 < bitmapSize M
  writes : ∀ mem s, pmmInit b (entryState mem) = .ok s → ∀ a, ¬s.Storage a → s.mem a = mem a

section
variable {M : List MemmapEntry} {b : Boot} {mem : Memory} {s : State} {a n : Nat}

theorem foldl_clearedBits : (clearedBits M).foldl mmapUnset s = unsetBlocks (usableBlocks M) s := by
  rw [clearedBits, List.foldl_map, unsetBlocks]

theorem foldl_markedBits (haddr : s.pmmUsableAddr = usableAddr M) (hbytes : bitmapBytes s = bitmapSize M) :
    (markedBits M).foldl mmapSet s = markBitmap s := by
  rw [markedBits, List.foldl_map, markBitmap, hbytes]
  generalize bitmapSize M = N
  clear hbytes
  induction N with
  | zero => rw [List.range_zero, List.foldl_nil, List.foldl_nil]
  | succ N ih =>
    -- Every mark reads `pmm_usable_addr`, which no mark changes.
    have hkept : OnlyMem s ((List.range N).foldl
        (fun s i => mmapSet s (toInt (addr2block s.pmmUsableAddr + BitVec.ofNat 64 i))) s) :=
      Loop.foldl_inv (OnlyMem s) (fun _ _ _ h => h.trans OnlyMem.mmapSet) (OnlyMem.refl s)
    rw [List.range_succ, List.foldl_append, List.foldl_append, List.foldl_cons, List.foldl_nil, List.foldl_cons,
      List.foldl_nil, hkept.pmmUsableAddr, haddr, ih]

theorem pmmInit_eq_bits (hM : UsableOk M) (hb : b.memmap = some M) : pmmInit b (entryState mem) =
    .ok ((markedBits M).foldl mmapSet ((clearedBits M).foldl mmapUnset (pmmFilled M mem))) := by
  have only : OnlyMem (pmmLayout M (entryState mem)) (unsetBlocks (usableBlocks M) (pmmFilled M mem)) :=
    pmmFilled_onlyMem.trans OnlyMem.unsetBlocks
  rw [pmmInit_eq hM hb, foldl_clearedBits, foldl_markedBits]
  · rw [only.pmmUsableAddr, pmmLayout_usableAddr]
  · rw [only.bitmapBytes, bitmapBytes_of_count pmmLayout_count]

theorem mem_pmmInit (hM : UsableOk M) (hb : b.memmap = some M) (h : pmmInit b (entryState mem) = .ok s)
    (hfill : ¬s.Storage a) (hbits : ∀ bit ∈ clearedBits M ++ markedBits M, a ≠ (bitmapPtr s bit).toNat) :
    s.mem a = mem a := by
  have only := pmmInit_onlyMem hb h
  rw [pmmInit_eq_bits hM hb] at h
  cases h
  have hfold : ∀ {f : State → Int → State} {l : List Int} {t : State}, (∀ t i, OnlyMem t (f t i)) →
      (∀ t, ∀ i ∈ l, OnlyMem (pmmLayout M (entryState mem)) t → (f t i).mem a = t.mem a) →
      OnlyMem (pmmLayout M (entryState mem)) t →
      OnlyMem (pmmLayout M (entryState mem)) (l.foldl f t) ∧ (l.foldl f t).mem a = t.mem a := by
    intro f l t hf hmem ht
    refine Loop.foldl_inv (fun u => OnlyMem (pmmLayout M (entryState mem)) u ∧ u.mem a = t.mem a) ?_ ⟨ht, rfl⟩
    rintro u i hi ⟨hu, hua⟩
    exact ⟨hu.trans (hf u i), by rw [hmem u i hi hu, hua]⟩
  have hptr : ∀ {t : State}, OnlyMem (pmmLayout M (entryState mem)) t → ∀ bit ∈ clearedBits M ++ markedBits M,
      a ≠ (bitmapPtr t bit).toNat := fun ht bit hbit => by
    have := hbits bit hbit
    rwa [bitmapPtr, only.pmmBitmap, ← ht.pmmBitmap] at this
  obtain ⟨h1, hmem1⟩ := hfold (f := mmapUnset) (l := clearedBits M) (fun _ _ => OnlyMem.mmapUnset)
    (fun t i hi ht => mem_mmapUnset_of_ne (hptr ht i (List.mem_append_left _ hi))) pmmFilled_onlyMem
  obtain ⟨-, hmem2⟩ := hfold (f := mmapSet) (l := markedBits M) (fun _ _ => OnlyMem.mmapSet)
    (fun t i hi ht => mem_mmapSet_of_ne (hptr ht i (List.mem_append_right _ hi))) h1
  rw [hmem2, hmem1, pmmFilled, mem_memset, if_neg]
  · rfl
  · rintro ⟨i, hi, hai⟩
    refine hfill ⟨i, ?_, ?_⟩
    · rwa [only.bitmapBytes]
    · rw [only.bitmapAddr, hai]
      rfl

theorem mem_clearedBits (hM : UsableOk M) {bit : Int} :
    bit ∈ clearedBits M ↔ ∃ n : Nat, n ∈ usablePages M ∧ bit = n := by
  simp only [clearedBits, List.mem_map, mem_usableBlocks hM]
  exact ⟨fun ⟨n, hn, he⟩ => ⟨n, hn, he.symm⟩, fun ⟨n, hn, he⟩ => ⟨n, hn, he.symm⟩⟩

theorem markedBlock_toNat (hM : UsableOk M) {i : Nat} (hi : i < bitmapSize M) :
    (addr2block (usableAddr M) + BitVec.ofNat 64 i).toNat = bitmapBlock M + i := by
  have haddr := hM.usableAddr_ok.2
  have hB := hM.bitmapSize_le
  rw [BitVec.toNat_add, addr2block_toNat, BitVec.toNat_ofNat, bitmapBlock]
  omega

theorem StaysInBitmap.shape (h : StaysInBitmap b M) (hM : UsableOk M) :
    8 ∣ blockCount M ∧ usablePages M = Finset.range (blockCount M) ∧
      (blockCount M = 0 ∨ bitmapBlock M + blockCount M / 8 ≤ blockCount M) := by
  have hB := hM.bitmapSize_le
  have haddr := hM.usableAddr_ok.2
  have hcard := hM.blockCount_eq
  have hidx := h.index
  have hsub : usablePages M ⊆ Finset.range (8 * bitmapSize M) := fun n hn => by
    have hlt := (hidx n (List.mem_append_left _ ((mem_clearedBits hM).mpr ⟨n, hn, rfl⟩))).2
    rw [tdiv_natCast] at hlt
    rw [Finset.mem_range]
    omega
  have hle := Finset.card_le_card hsub
  rw [Finset.card_range, ← hcard, bitmapSize] at hle
  have heq : 8 * bitmapSize M = blockCount M := by rw [bitmapSize]; omega
  rw [heq] at hsub
  refine ⟨by omega, Finset.eq_of_subset_of_card_le hsub (by rw [Finset.card_range, hcard]), ?_⟩
  rcases Nat.eq_zero_or_pos (bitmapSize M) with h0 | hpos
  · exact Or.inl (by omega)
  · right
    -- The last mark bounds the others.
    have hlast := hidx (toInt (addr2block (usableAddr M) + BitVec.ofNat 64 (bitmapSize M - 1)))
      (List.mem_append_right _ (List.mem_map.mpr ⟨bitmapSize M - 1, List.mem_range.mpr (by omega), rfl⟩))
    have hnat := markedBlock_toNat hM (i := bitmapSize M - 1) (by omega)
    rw [bitmapBlock] at hnat ⊢
    by_cases hlt : bitmapBlock M + (bitmapSize M - 1) < 2 ^ 31
    · rw [bitmapBlock] at hlt
      rw [toInt_of_lt (by omega), hnat, tdiv_natCast] at hlast
      omega
    · rw [bitmapBlock] at hlt
      obtain ⟨k, hk, hpos, -⟩ := tdiv_of_wrapped
        (x := addr2block (usableAddr M) + BitVec.ofNat 64 (bitmapSize M - 1)) (by omega) (by omega)
      omega

/-- On such a map every bit that is set or cleared is one of the bitmap. -/
theorem bit_inside (hM : UsableOk M) (hdvd : 8 ∣ blockCount M) (hpages : usablePages M = Finset.range (blockCount M))
    (hend : blockCount M = 0 ∨ bitmapBlock M + blockCount M / 8 ≤ blockCount M) {bit : Int}
    (hbit : bit ∈ clearedBits M ++ markedBits M) : ∃ n : Nat, bit = n ∧ n < 8 * bitmapSize M := by
  have hT : blockCount M ≤ 2 ^ 31 := by
    rw [hM.blockCount_eq]
    exact hM.card_le
  rcases List.mem_append.mp hbit with hbit | hbit
  · obtain ⟨n, hn, rfl⟩ := (mem_clearedBits hM).mp hbit
    rw [hpages, Finset.mem_range] at hn
    refine ⟨n, rfl, ?_⟩
    rw [bitmapSize]
    omega
  · obtain ⟨i, hi, rfl⟩ := List.mem_map.mp hbit
    rw [List.mem_range] at hi
    have hnat := markedBlock_toNat hM hi
    rw [bitmapSize] at hi
    exact ⟨bitmapBlock M + i, by rw [toInt_of_lt (by omega), hnat], by rw [bitmapSize]; omega⟩

/-- `pmm_init` stays in its bitmap exactly on the maps whose usable pages are the first `T` pages of
    memory, with `T` a multiple of 8 and the marked blocks among them. -/
theorem staysInBitmap_iff (hM : UsableOk M) (hb : b.memmap = some M) :
    StaysInBitmap b M ↔ 8 ∣ blockCount M ∧ usablePages M = Finset.range (blockCount M) ∧
      (blockCount M = 0 ∨ bitmapBlock M + blockCount M / 8 ≤ blockCount M) := by
  constructor
  · intro h
    exact h.shape hM
  · rintro ⟨hdvd, hpages, hend⟩
    refine ⟨fun bit hbit => ?_, fun mem s h a ha => mem_pmmInit hM hb h ha fun bit hbit hptr => ?_⟩
    · obtain ⟨n, rfl, hn⟩ := bit_inside hM hdvd hpages hend hbit
      rw [tdiv_natCast]
      omega
    · obtain ⟨n, rfl, hn⟩ := bit_inside hM hdvd hpages hend hbit
      rw [bitmapPtr_natCast] at hptr
      refine ha ⟨n / 8, ?_, hptr⟩
      rw [bitmapBytes_of_count (pmmInit_count hb h)]
      omega

end

theorem staysInBitmap_sample : StaysInBitmap (sampleBoot firstPages) firstPages :=
  (staysInBitmap_iff firstPages_ok rfl).mpr ⟨by decide, by rw [usablePages_firstPages]; decide, by decide⟩

/-- The last usable page of `sampleMap` is block 16639, whose bit would be in byte 2079 of a bitmap of
    2048 bytes. -/
theorem usable_page_past_bitmap : ¬StaysInBitmap (sampleBoot sampleMap) sampleMap := by
  rintro ⟨hidx, -⟩
  have hmem : (16639 : Int) ∈ clearedBits sampleMap ++ markedBits sampleMap :=
    List.mem_append_left _ ((mem_clearedBits sampleMap_like.ok).mpr ⟨16639, by simp [sampleMap_like.pages], rfl⟩)
  have hlt := (hidx 16639 hmem).2
  rw [sampleMap_like.size] at hlt
  exact absurd hlt (by decide)

end Neobird64
