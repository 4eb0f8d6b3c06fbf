import Neobird64.Pmm
import Mathlib.Data.Finset.Card
import Mathlib.Order.Interval.Finset.Nat

/-! The memory map as a set of pages. Page-aligned, disjoint usable entries below 8 TiB cover
    `blockCount` pages, all below 2^31, so none of the sums of `pmm_init` overflows. -/

namespace Neobird64

namespace MemmapEntry

/-- The byte at physical address `a` belongs to the entry. -/
def Holds (e : MemmapEntry) (a : Nat) : Prop := e.base.toNat ≤ a ∧ a < e.base.toNat + e.length.toNat

/-- The pages of a page-aligned entry. -/
def pages (e : MemmapEntry) : Finset Nat :=
  Finset.Ico (e.base.toNat / 4096) ((e.base.toNat + e.length.toNat) / 4096)

end MemmapEntry

/-- What the boot protocol promises of the usable entries, below 8 TiB. -/
structure UsableOk (M : List MemmapEntry) : Prop where
  aligned : ∀ e ∈ M, e.type = .usable → e.base.toNat % 4096 = 0 ∧ e.length.toNat % 4096 = 0
  below : ∀ e ∈ M, e.type = .usable → e.base.toNat + e.length.toNat ≤ 2 ^ 43
  disjoint : M.Pairwise fun e e' => e.type = .usable → e'.type = .usable → ∀ a, ¬(e.Holds a ∧ e'.Holds a)

/-- The pages of the usable entries. -/
def usablePages : List MemmapEntry → Finset Nat
  | [] => ∅
  | e :: M => (if e.type = .usable then e.pages else ∅) ∪ usablePages M

/-- `pmm_usable_addr`: the base of the first usable entry, 0 when there is none. -/
def usableAddr (M : List MemmapEntry) : Word := ((M.find? fun e => e.type = .usable).map (·.base)).getD 0

/-- The usable bytes that `pmm_init` counts. -/
def usableBytes (M : List MemmapEntry) : Nat := (memSize M 0).toNat

/-- `pmm_block_count`. -/
def blockCount (M : List MemmapEntry) : Nat := usableBytes M / 4096

/-- The bytes of the bitmap, which is also the number of blocks that `pmm_init` marks for it. -/
def bitmapSize (M : List MemmapEntry) : Nat := blockCount M / 8

/-- The first block of the bitmap. -/
def bitmapBlock (M : List MemmapEntry) : Nat := (usableAddr M).toNat / 4096

/-! ### The first usable entry -/

theorem parseMemmap_found (M : List MemmapEntry) (addr : Word) :
    M.foldl (fun (found, addr) e =>
      if e.type = .usable ∧ found = false then (true, e.base) else (found, addr)) (true, addr) = (true, addr) := by
  induction M with
  | nil => rfl
  | cons e M ih => simpa using ih

theorem parseMemmap_eq (M : List MemmapEntry) : (parseMemmap M 0).2 = usableAddr M := by
  rw [parseMemmap, usableAddr]
  induction M with
  | nil => rfl
  | cons e M ih =>
    rw [List.foldl_cons, List.find?_cons]
    by_cases he : e.type = .usable
    · simp only [he, true_and, ↓reduceIte, decide_true, parseMemmap_found]
      rfl
    · simpa only [he, false_and, ↓reduceIte, decide_false] using ih

theorem usableAddr_mem {M : List MemmapEntry} (h : ∃ e ∈ M, e.type = .usable) :
    ∃ e ∈ M, e.type = .usable ∧ usableAddr M = e.base := by
  obtain ⟨e, he, hu⟩ := h
  cases hf : M.find? fun e => e.type = .usable with
  | none => exact absurd (List.find?_eq_none.mp hf e he) (by simp [hu])
  | some f =>
    exact ⟨f, List.mem_of_find?_eq_some hf, by simpa using List.find?_some hf, by simp [usableAddr, hf]⟩

theorem usableAddr_of_none {M : List MemmapEntry} (h : ∀ e ∈ M, e.type ≠ .usable) : usableAddr M = 0 := by
  have hf : (M.find? fun e => e.type = .usable) = none := by
    rw [List.find?_eq_none]
    intro e he
    simpa using h e he
  rw [usableAddr, hf]
  rfl

/-! ### Sizes -/

theorem mem_usablePages {M : List MemmapEntry} {n : Nat} :
    n ∈ usablePages M ↔ ∃ e ∈ M, e.type = .usable ∧ n ∈ e.pages := by
  induction M with
  | nil => simp [usablePages]
  | cons e M ih =>
    rw [usablePages, Finset.mem_union, ih]
    by_cases he : e.type = .usable <;> simp [he]

namespace UsableOk
variable {M : List MemmapEntry} {e : MemmapEntry} {n : Nat}

theorem tail (h : UsableOk (e :: M)) : UsableOk M where
  aligned e' he' := h.aligned e' (List.mem_cons_of_mem _ he')
  below e' he' := h.below e' (List.mem_cons_of_mem _ he')
  disjoint := (List.pairwise_cons.mp h.disjoint).2

theorem mem_pages (h : UsableOk M) (he : e ∈ M) (hu : e.type = .usable) : n ∈ e.pages ↔ e.Holds (4096 * n) := by
  have := h.aligned e he hu
  rw [MemmapEntry.pages, Finset.mem_Ico, MemmapEntry.Holds]
  omega

/-- A page of an entry lies in it with all its bytes. -/
theorem holds_of_mem (h : UsableOk M) (he : e ∈ M) (hu : e.type = .usable) (hn : n ∈ e.pages) {a : Nat}
    (ha : a / 4096 = n) : e.Holds a := by
  have := h.aligned e he hu
  rw [MemmapEntry.pages, Finset.mem_Ico] at hn
  rw [MemmapEntry.Holds]
  omega

theorem card_pages (h : UsableOk M) (he : e ∈ M) (hu : e.type = .usable) :
    4096 * e.pages.card = e.length.toNat := by
  have := h.aligned e he hu
  rw [MemmapEntry.pages, Nat.card_Ico]
  omega

theorem lt_of_mem (h : UsableOk M) (hn : n ∈ usablePages M) : n < 2 ^ 31 := by
  obtain ⟨e, he, hu, hn⟩ := mem_usablePages.mp hn
  have := h.below e he hu
  rw [MemmapEntry.pages, Finset.mem_Ico] at hn
  omega

theorem disjoint_pages (h : UsableOk (e :: M)) (hu : e.type = .usable) : Disjoint e.pages (usablePages M) := by
  rw [Finset.disjoint_left]
  intro n hn hn'
  obtain ⟨e', he', hu', hn'⟩ := mem_usablePages.mp hn'
  exact (List.pairwise_cons.mp h.disjoint).1 e' he' hu hu' (4096 * n)
    ⟨(h.mem_pages List.mem_cons_self hu).mp hn, (h.tail.mem_pages he' hu').mp hn'⟩

theorem card_le (h : UsableOk M) : (usablePages M).card ≤ 2 ^ 31 := by
  have hsub : usablePages M ⊆ Finset.range (2 ^ 31) := fun n hn => Finset.mem_range.mpr (h.lt_of_mem hn)
  simpa using Finset.card_le_card hsub

theorem memSize_toNat (h : UsableOk M) : ∀ {x : Word}, x.toNat + 4096 * (usablePages M).card < 2 ^ 64 →
    (memSize M x).toNat = x.toNat + 4096 * (usablePages M).card := by
  induction M with
  | nil => intro x _; simp [memSize, usablePages]
  | cons e M ih =>
    intro x hx
    rw [memSize, List.foldl_cons, ← memSize]
    by_cases hu : e.type = .usable
    · have hcard : (usablePages (e :: M)).card = e.pages.card + (usablePages M).card := by
        rw [usablePages, if_pos hu, Finset.card_union_of_disjoint (h.disjoint_pages hu)]
      have hlen := h.card_pages List.mem_cons_self hu
      rw [hcard] at hx ⊢
      have hadd : (x + e.length).toNat = x.toNat + e.length.toNat := by
        rw [BitVec.toNat_add, Nat.mod_eq_of_lt (by omega)]
      rw [if_pos hu, ih h.tail (by omega), hadd]
      omega
    · have hpages : usablePages (e :: M) = usablePages M := by simp [usablePages, hu]
      rw [if_neg hu, hpages]
      exact ih h.tail (hpages ▸ hx)

/-- `pmm_block_count` is the number of usable pages. -/
theorem blockCount_eq (h : UsableOk M) : blockCount M = (usablePages M).card := by
  have := h.card_le
  rw [blockCount, usableBytes, h.memSize_toNat (by simp; omega)]
  simp

theorem usableAddr_ok (h : UsableOk M) : (usableAddr M).toNat % 4096 = 0 ∧ (usableAddr M).toNat ≤ 2 ^ 43 := by
  by_cases hu : ∃ e ∈ M, e.type = .usable
  · obtain ⟨e, he, hu, haddr⟩ := usableAddr_mem hu
    have h1 := h.aligned e he hu
    have h2 := h.below e he hu
    rw [haddr]
    omega
  · have hn : usableAddr M = 0 := usableAddr_of_none fun e he hue => hu ⟨e, he, hue⟩
    simp [hn]

end UsableOk

/-! ### A map with one usable entry -/

section
variable {base length : Word}

theorem UsableOk.single (hb : base.toNat % 4096 = 0) (hl : length.toNat % 4096 = 0)
    (hlt : base.toNat + length.toNat ≤ 2 ^ 43) : UsableOk [⟨base, length, .usable⟩] where
  aligned e he _ := by
    obtain rfl := List.mem_singleton.mp he
    exact ⟨hb, hl⟩
  below e he _ := by
    obtain rfl := List.mem_singleton.mp he
    exact hlt
  disjoint := List.pairwise_singleton _ _

theorem usablePages_single : usablePages [⟨base, length, .usable⟩] =
    Finset.Ico (base.toNat / 4096) ((base.toNat + length.toNat) / 4096) := by
  simp [usablePages, MemmapEntry.pages]

end

/-- A boot with the memory map `M`: the HHDM and the kernel where the boot loader puts them by default. -/
def sampleBoot (M : List MemmapEntry) : Boot where
  memmap := some M
  hhdm := 0xffff800000000000
  kernelAddress := some { physicalBase := 0x8000000, virtualBase := 0xffffffff80000000 }
  rsdp := some 0x1000
  sections := {
    textStart := 0xffffffff80000000
    textEnd := 0xffffffff80002345
    rodataStart := 0xffffffff80004000
    rodataEnd := 0xffffffff80004567
    dataStart := 0xffffffff80006000
    dataEnd := 0xffffffff80007890 }

/-- 64 MiB of memory above the first MiB. -/
def sampleMap : List MemmapEntry := [⟨0x100000, 0x4000000, .usable⟩]

/-- The same memory with ACPI tables: right above it, at no page boundary, and in the page at 4 GiB. -/
def acpiMap : List MemmapEntry :=
  sampleMap ++ [⟨0x4100800, 0x1000, .acpiReclaimable⟩, ⟨0x100000000, 0x1000, .acpiReclaimable⟩]

/-- The same memory with ACPI tables in the two pages above it. -/
def lowMap : List MemmapEntry := sampleMap ++ [⟨0x4100000, 0x2000, .acpiReclaimable⟩]

/-- The usable memory of `M` is that of `sampleMap`. -/
structure LikeSample (M : List MemmapEntry) : Prop where
  ok : UsableOk M
  pages : usablePages M = Finset.Ico 256 16640
  addr : usableAddr M = 0x100000
  count : blockCount M = 16384

theorem sampleMap_like : LikeSample sampleMap where
  ok := UsableOk.single (by decide) (by decide) (by decide)
  pages := usablePages_single
  addr := rfl
  count := by decide

theorem acpiMap_like : LikeSample acpiMap where
  ok := ⟨by decide, by decide, by simp [acpiMap, sampleMap]⟩
  pages := by
    have hcons : usablePages acpiMap = usablePages sampleMap := by simp [acpiMap, sampleMap, usablePages]
    exact hcons.trans usablePages_single
  addr := rfl
  count := by decide

theorem lowMap_like : LikeSample lowMap where
  ok := ⟨by decide, by decide, by simp [lowMap, sampleMap]⟩
  pages := by
    have hcons : usablePages lowMap = usablePages sampleMap := by simp [lowMap, sampleMap, usablePages]
    exact hcons.trans usablePages_single
  addr := rfl
  count := by decide

namespace LikeSample
variable {M : List MemmapEntry} (h : LikeSample M)
include h

theorem size : bitmapSize M = 2048 := by rw [bitmapSize, h.count]

theorem block : bitmapBlock M = 256 := by
  rw [bitmapBlock, h.addr]
  rfl

theorem zero : 0 ∉ usablePages M := by
  rw [h.pages]
  simp

end LikeSample

end Neobird64
