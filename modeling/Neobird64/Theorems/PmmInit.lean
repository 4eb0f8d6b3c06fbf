import Neobird64.Theorems.Loops
import Neobird64.Theorems.Memmap
import Neobird64.Start

/-! What `pmm_init` leaves behind. Its three passes fill the bitmap, clear one bit for each usable page
    and set one bit for each byte of the bitmap, from the block of the bitmap on; so a bit of the
    scanned range is clear exactly for the usable pages outside of those blocks. -/

namespace Neobird64
open State

/-- The blocks that `pmm_init` clears, in order. -/
def usableBlocks : List MemmapEntry → List Nat
  | [] => []
  | e :: M =>
    (if e.type = .usable then (List.range (e.length.toNat / 4096)).map (e.base.toNat / 4096 + ·) else []) ++
      usableBlocks M

/-- The blocks that `pmm_init` marks for the bitmap, in order. -/
def markedBlocks (M : List MemmapEntry) : List Nat :=
  (List.range (bitmapSize M)).map (bitmapBlock M + ·)

/-- Clear the bits of the blocks `l`, in order. -/
def unsetBlocks (l : List Nat) (s : State) : State := l.foldl (fun s (n : Nat) => mmapUnset s n) s

theorem OnlyMem.unsetBlocks {l : List Nat} {s : State} : OnlyMem s (unsetBlocks l s) :=
  Loop.foldl_inv (OnlyMem s) (fun _ _ _ h => h.trans OnlyMem.mmapUnset) (OnlyMem.refl s)

theorem OnlyMem.markBitmap {s : State} : OnlyMem s (markBitmap s) :=
  Loop.foldl_inv (OnlyMem s) (fun _ _ _ h => h.trans OnlyMem.mmapSet) (OnlyMem.refl s)

theorem OnlyMem.clearUsable {M : List MemmapEntry} {s t : State} (h : clearUsable M s = .ok t) : OnlyMem s t := by
  refine Loop.foldlM_inv (OnlyMem s) (fun s₁ e s₂ _ h₁ he => ?_) (OnlyMem.refl s) h
  split at he
  · refine h₁.trans (Loop.forLoop_inv (OnlyMem s₁) (fun s₃ j s₄ h₃ hj => ?_) (OnlyMem.refl s₁) he)
    cases hj
    exact h₃.trans OnlyMem.mmapUnset
  · cases he
    exact h₁

section
variable {M : List MemmapEntry} {s : State} {n k a : Nat}

theorem mem_usableBlocks (h : UsableOk M) : n ∈ usableBlocks M ↔ n ∈ usablePages M := by
  induction M with
  | nil => simp [usableBlocks, usablePages]
  | cons e M ih =>
    rw [usableBlocks, usablePages, List.mem_append, Finset.mem_union, ih h.tail]
    by_cases hu : e.type = .usable
    · have := h.aligned e List.mem_cons_self hu
      simp only [hu, ↓reduceIte, List.mem_map, List.mem_range, MemmapEntry.pages, Finset.mem_Ico]
      refine or_congr_left ⟨?_, fun hn => ⟨n - e.base.toNat / 4096, by omega, by omega⟩⟩
      rintro ⟨i, hi, rfl⟩
      omega
    · simp [hu]

theorem mem_markedBlocks : n ∈ markedBlocks M ↔ bitmapBlock M ≤ n ∧ n < bitmapBlock M + bitmapSize M := by
  simp only [markedBlocks, List.mem_map, List.mem_range]
  constructor
  · rintro ⟨i, hi, rfl⟩
    omega
  · intro hn
    exact ⟨n - bitmapBlock M, by omega, by omega⟩

/-! ### The three passes -/

theorem addr2block_toNat (addr : Word) : (addr2block addr).toNat = addr.toNat / 4096 := BitVec.toNat_udiv

theorem bit_memset (hk : k < s.scanned) : (memset .identity s s.pmmBitmap 0xFF (bitmapBytes s)).bit k = true := by
  have hi : k / 8 < bitmapBytes s := by rw [scanned] at hk; omega
  have hk8 : k % 8 < 8 := Nat.mod_lt _ (by omega)
  rw [State.bit, OnlyMem.memset.bitmapAddr, mem_memset, if_pos ⟨k / 8, hi, rfl⟩]
  generalize k % 8 = j at hk8
  interval_cases j <;> rfl

theorem clearUsable_cons {e : MemmapEntry} :
    clearUsable (e :: M) s = (if e.type = .usable then
        forPages 0 e.length (fun s j => .ok (mmapUnset s (toInt (addr2block (e.base + j))))) s
      else .ok s) >>= clearUsable M := by
  rw [clearUsable, List.foldlM_cons]
  rfl

theorem clearUsable_eq (h : UsableOk M) :
    clearUsable M s = .ok (unsetBlocks (usableBlocks M) s) := by
  induction M generalizing s with
  | nil => rfl
  | cons e M ih =>
    rw [clearUsable_cons]
    by_cases hu : e.type = .usable
    · have hal := h.aligned e List.mem_cons_self hu
      have hlt := h.below e List.mem_cons_self hu
      have hsteps : (e.length.toNat - (0 : Word).toNat + 4095) / 4096 = e.length.toNat / 4096 := by
        have hzero : (0 : Word).toNat = 0 := rfl
        omega
      simp only [hu, ↓reduceIte, usableBlocks]
      rw [forPages_eq (by omega), pageSteps, hsteps, Loop.foldlM_ok, Loop.ok_bind, ih h.tail, unsetBlocks,
        unsetBlocks, List.foldl_append, List.foldl_map, List.foldl_map]
      congr 2
      refine List.foldl_ext _ _ _ fun t i hi => ?_
      rw [List.mem_range] at hi
      have hblock : (addr2block (e.base + (0 + BitVec.ofNat 64 (4096 * i)))).toNat = e.base.toNat / 4096 + i := by
        simp only [addr2block_toNat, BitVec.toNat_add, BitVec.toNat_ofNat]
        omega
      rw [toInt_of_lt (by omega), hblock]
    · simp only [hu, ↓reduceIte, usableBlocks, Loop.ok_bind, List.nil_append]
      exact ih h.tail

theorem bit_unsetBlocks {l : List Nat} (hl : ∀ n ∈ l, n < 2 ^ 64) (hk : k < 2 ^ 64) :
    (unsetBlocks l s).bit k = (s.bit k && !decide (k ∈ l)) := by
  induction l generalizing s with
  | nil => simp [unsetBlocks]
  | cons n l ih =>
    rw [unsetBlocks, List.foldl_cons, ← unsetBlocks, ih fun m hm => hl m (List.mem_cons_of_mem _ hm), bit_mmapUnset (hl n List.mem_cons_self) hk]
    cases s.bit k <;> simp [Bool.and_comm]

/-- A mark past the range of `int` misses the bitmap. -/
theorem bit_mmapSet_toInt {x : Word} (hx : x.toNat + 8 ≤ 2 ^ 32) (hk : k < 2 ^ 31) :
    (mmapSet s (toInt x)).bit k = (decide (k = x.toNat) || s.bit k) := by
  by_cases hlt : x.toNat < 2 ^ 31
  · rw [toInt_of_lt hlt, bit_mmapSet (by omega) (by omega)]
  · have hne : k ≠ x.toNat := by omega
    rw [bit_mmapSet_of_wrapped (by omega) hx (by omega)]
    simp [hne]

theorem bit_markBitmap (hu : s.pmmUsableAddr.toNat ≤ 2 ^ 43) (hB : bitmapBytes s ≤ 2 ^ 28) (hk : k < 2 ^ 31) :
    (markBitmap s).bit k =
      (decide (s.pmmUsableAddr.toNat / 4096 ≤ k ∧ k < s.pmmUsableAddr.toNat / 4096 + bitmapBytes s) || s.bit k) := by
  rw [markBitmap]
  generalize bitmapBytes s = N at hB
  induction N with
  | zero =>
    have hfalse : ¬(s.pmmUsableAddr.toNat / 4096 ≤ k ∧ k < s.pmmUsableAddr.toNat / 4096 + 0) := by omega
    rw [decide_eq_false hfalse, Bool.false_or]
    rfl
  | succ N ih =>
    have haddr := addr2block_toNat s.pmmUsableAddr
    have hadd : (addr2block s.pmmUsableAddr + BitVec.ofNat 64 N).toNat = s.pmmUsableAddr.toNat / 4096 + N := by
      rw [BitVec.toNat_add, BitVec.toNat_ofNat]
      omega
    -- Every mark reads `pmm_usable_addr` again, which the marks before it have kept.
    have only : OnlyMem s ((List.range N).foldl
        (fun s i => mmapSet s (toInt (addr2block s.pmmUsableAddr + BitVec.ofNat 64 i))) s) :=
      Loop.foldl_inv (OnlyMem s) (fun _ _ _ h => h.trans OnlyMem.mmapSet) (OnlyMem.refl s)
    rw [List.range_succ, List.foldl_append, List.foldl_cons, List.foldl_nil, only.pmmUsableAddr,
      bit_mmapSet_toInt (by omega) hk, ih (by omega), hadd, ← Bool.or_assoc, ← Bool.decide_or]
    congr 2
    exact propext (by omega)

end

/-! ### The result -/

/-- The globals and the bitmap as `pmm_init` leaves them. -/
structure PmmReady (M : List MemmapEntry) (s : State) : Prop where
  memmap : s.memmap = M
  addr : s.pmmUsableAddr = usableAddr M
  bitmap : s.pmmBitmap = usableAddr M
  count : s.pmmBlockCount.toNat = blockCount M
  clear : ∀ n < s.scanned, s.bit n = false ↔ n ∈ usablePages M ∧ n ∉ markedBlocks M

section
variable {M : List MemmapEntry} {b : Boot} {mem : Memory} {s : State} {n a : Nat}

theorem pmmLayout_count : (pmmLayout M (entryState mem)).pmmBlockCount.toNat = blockCount M := BitVec.toNat_udiv

theorem pmmLayout_usableAddr : (pmmLayout M (entryState mem)).pmmUsableAddr = usableAddr M := parseMemmap_eq M

theorem pmmLayout_bitmap : (pmmLayout M (entryState mem)).pmmBitmap = usableAddr M := by
  have h : (pmmLayout M (entryState mem)).pmmBitmap = (parseMemmap M 0).2 + 0 := rfl
  rw [h, parseMemmap_eq]
  exact BitVec.add_zero _

theorem bitmapBytes_of_count (h : s.pmmBlockCount.toNat = blockCount M) : bitmapBytes s = bitmapSize M := by
  have hdiv : bitmapBytes s = s.pmmBlockCount.toNat / 8 := BitVec.toNat_udiv
  rw [hdiv, h, bitmapSize]

theorem UsableOk.bitmapSize_le (h : UsableOk M) : bitmapSize M ≤ 2 ^ 28 := by
  have := h.card_le
  rw [bitmapSize, h.blockCount_eq]
  omega

/-- The state of `pmm_init` after its `memset`. -/
def pmmFilled (M : List MemmapEntry) (mem : Memory) : State :=
  let s := pmmLayout M (entryState mem)
  memset .identity s s.pmmBitmap 0xFF (bitmapBytes s)

theorem pmmFilled_onlyMem : OnlyMem (pmmLayout M (entryState mem)) (pmmFilled M mem) := OnlyMem.memset

/-- The passes of `pmm_init` as folds over the blocks they touch. -/
theorem pmmInit_eq (hM : UsableOk M) (hb : b.memmap = some M) :
    pmmInit b (entryState mem) = .ok (markBitmap (unsetBlocks (usableBlocks M) (pmmFilled M mem))) := by
  simp only [pmmInit, hb, clearUsable_eq hM]
  rfl

theorem pmmInit_ok (hM : UsableOk M) (hb : b.memmap = some M) (mem : Memory) :
    ∃ s, pmmInit b (entryState mem) = .ok s := ⟨_, pmmInit_eq hM hb⟩

theorem pmmInit_onlyMem (hb : b.memmap = some M) (h : pmmInit b (entryState mem) = .ok s) :
    OnlyMem (pmmLayout M (entryState mem)) s := by
  simp only [pmmInit, hb] at h
  obtain ⟨t, ht, hs⟩ := Loop.bind_eq_ok.mp h
  cases hs
  exact (pmmFilled_onlyMem.trans (OnlyMem.clearUsable ht)).trans OnlyMem.markBitmap

theorem pmmInit_usableAddr (hb : b.memmap = some M) (h : pmmInit b (entryState mem) = .ok s) :
    s.pmmUsableAddr = usableAddr M := by
  rw [(pmmInit_onlyMem hb h).pmmUsableAddr, pmmLayout_usableAddr]

theorem pmmInit_count (hb : b.memmap = some M) (h : pmmInit b (entryState mem) = .ok s) :
    s.pmmBlockCount.toNat = blockCount M := by
  rw [(pmmInit_onlyMem hb h).pmmBlockCount, pmmLayout_count]

theorem pmmInit_ready (hM : UsableOk M) (hb : b.memmap = some M) (h : pmmInit b (entryState mem) = .ok s) :
    PmmReady M s := by
  have only := pmmInit_onlyMem hb h
  have hcount := pmmInit_count hb h
  refine ⟨only.memmap, pmmInit_usableAddr hb h, by rw [only.pmmBitmap, pmmLayout_bitmap], hcount, fun n hn => ?_⟩
  have hB := hM.bitmapSize_le
  rw [scanned, bitmapBytes_of_count hcount] at hn
  -- The state before the marks, whose globals are those of the layout.
  rw [pmmInit_eq hM hb] at h
  have hunset := pmmFilled_onlyMem.trans (OnlyMem.unsetBlocks (l := usableBlocks M) (s := pmmFilled M mem))
  have haddr := hM.usableAddr_ok.2
  cases h
  rw [bit_markBitmap (by rw [hunset.pmmUsableAddr, pmmLayout_usableAddr]; exact haddr)
      (by rw [hunset.bitmapBytes, bitmapBytes_of_count pmmLayout_count]; exact hB) (by omega),
    hunset.pmmUsableAddr, hunset.bitmapBytes, pmmLayout_usableAddr, bitmapBytes_of_count pmmLayout_count,
    bit_unsetBlocks (fun m hm => by have := hM.lt_of_mem ((mem_usableBlocks hM).mp hm); omega) (by omega),
    pmmFilled, bit_memset (by rw [scanned, bitmapBytes_of_count pmmLayout_count]; exact hn), mem_markedBlocks,
    bitmapBlock]
  simp [mem_usableBlocks hM, and_comm]

end

end Neobird64
