import Neobird64.Theorems.MapAll
import Neobird64.Theorems.InitAcpi
import Neobird64.Start

/-! `vmm_init` as one run of `vmm_map_page`: the spans of physical memory that it maps at their HHDM
    addresses, the sections of the kernel, the low 4 GiB and the page of the LAPIC, in this order. -/

namespace Neobird64
open State Paging PathTree

/-- A range of physical memory that is mapped page by page from its base at its HHDM address. -/
structure Span where
  base : Word
  length : Word
  flags : Word

def Span.ops (off : Word) (sp : Span) : List MapOp :=
  (pageSteps 0 sp.length).map fun j => ⟨sp.base + j + off, sp.base + j, sp.flags⟩

/-- The storage of the bitmap. -/
def bitmapSpan (s : State) : Span where
  base := s.pmmUsableAddr
  length := s.pmmBlockCount / 8
  flags := PTE_BIT_PRESENT ||| PTE_BIT_READ_WRITE

/-- An entry of the memory map, if `vmm_init` maps entries of its type. -/
def entrySpan (e : MemmapEntry) : Option Span := (entryFlags e.type).map fun flags => ⟨e.base, e.length, flags⟩

def sectionOps (k : KernelAddress) (start stop flags : Word) : List MapOp :=
  (pageSteps (alignDown start) (alignUp stop)).map fun addr => ⟨addr, addr - k.virtualBase + k.physicalBase, flags⟩

def identityOps : List MapOp :=
  (pageSteps 0x1000 0x100000000).map fun base =>
    ⟨base, base, PTE_BIT_PRESENT ||| PTE_BIT_READ_WRITE ||| PTE_BIT_EXECUTE_DISABLE⟩

def lapicOp (s : State) : MapOp :=
  ⟨alignDown (s.lapicAddr.setWidth 64 + s.hhdmoffset), alignDown (s.lapicAddr.setWidth 64),
    PTE_BIT_PRESENT ||| PTE_BIT_READ_WRITE⟩

def entryOps (s : State) : List MapOp := (s.memmap.filterMap entrySpan).flatMap (Span.ops s.hhdmoffset)

/-- The pages of the kernel's sections. -/
def kernelOps (k : KernelAddress) (sec : Sections) : List MapOp :=
  sectionOps k sec.textStart sec.textEnd PTE_BIT_PRESENT ++
    (sectionOps k sec.rodataStart sec.rodataEnd (PTE_BIT_PRESENT ||| PTE_BIT_EXECUTE_DISABLE) ++
    sectionOps k sec.dataStart sec.dataEnd (PTE_BIT_PRESENT ||| PTE_BIT_READ_WRITE ||| PTE_BIT_EXECUTE_DISABLE))

/-- The calls of `vmm_map_page` by `vmm_init`, in order. -/
def initOps (k : KernelAddress) (sec : Sections) (s : State) : List MapOp :=
  (bitmapSpan s).ops s.hhdmoffset ++ (entryOps s ++ (kernelOps k sec ++ (identityOps ++ [lapicOp s])))

/-- No loop over an entry steps past the end of the address space. -/
def LengthsOk (M : List MemmapEntry) : Prop := ∀ e ∈ M, (entryFlags e.type).isSome → e.length.toNat + 4095 < 2 ^ 64

/-! ### Alignment -/

section
variable {x : Word}

theorem alignDown_toNat : (alignDown x).toNat = x.toNat / 4096 * 4096 := by
  have hmask : (~~~(PAGE_SIZE - 1) : Word).toNat = (2 ^ 52 - 1) <<< 12 := by decide
  have hpow : (4096 : Nat) = 2 ^ 12 := by decide
  have hx := x.isLt
  rw [alignDown, BitVec.toNat_and, hmask]
  apply Nat.eq_of_testBit_eq
  intro i
  rw [hpow, ← Nat.shiftLeft_eq, ← Nat.shiftRight_eq_div_pow]
  simp only [Nat.testBit_and, Nat.testBit_shiftLeft, Nat.testBit_shiftRight, Nat.testBit_two_pow_sub_one]
  by_cases h : 12 ≤ i
  · have hi : 12 + (i - 12) = i := by omega
    by_cases h' : i - 12 < 52
    · simp [h, hi, h']
    · have hbit : x.toNat.testBit i = false :=
        Nat.testBit_lt_two_pow (lt_of_lt_of_le hx (Nat.pow_le_pow_right (by omega) (by omega)))
      simp [hi, h', hbit]
  · simp [h]

theorem alignUp_eq : alignUp x = alignDown (x + 4095) := by
  have h : x + PAGE_SIZE - 1 = x + 4095 := by
    rw [BitVec.sub_eq_add_neg, BitVec.add_assoc]
    rfl
  rw [alignUp, alignDown, h]

theorem alignUp_mod : (alignUp x).toNat % 4096 = 0 := by
  rw [alignUp_eq, alignDown_toNat]
  omega

theorem alignUp_toNat (h : x.toNat + 4095 < 2 ^ 64) : (alignUp x).toNat = (x.toNat + 4095) / 4096 * 4096 := by
  have hc : (4095 : Word).toNat = 4095 := rfl
  rw [alignUp_eq, alignDown_toNat, BitVec.toNat_add, hc, Nat.mod_eq_of_lt h]

end

/-! ### The loops as runs -/

section
variable {s : State} {k : KernelAddress} {sec : Sections} {start stop flags : Word} {b : Boot} {d : Devices} {M : List MemmapEntry}

/-- A page-stepped loop that maps one page at each step. -/
theorem forPages_mapAll {g : Word → MapOp} {body : State → Word → Except Halt State} (h : stop.toNat + 4095 < 2 ^ 64)
    (hbody : ∀ t, OnlyMem s t → ∀ i, body t i = vmmMapPage t s.kernelPageMap (g i).va (g i).pa (g i).flags) :
    forPages start stop body s = mapAll s.kernelPageMap ((pageSteps start stop).map g) s := by
  rw [forPages_eq h, mapAll, List.foldlM_map]
  exact Loop.foldlM_congr (OnlyMem s) (fun t i _ ht => hbody t ht i)
    (fun t i t' _ ht hi => ht.trans (vmmMapPage_onlyMem hi)) (OnlyMem.refl s)

theorem mapBitmap_eq : mapBitmap s = mapAll s.kernelPageMap ((bitmapSpan s).ops s.hhdmoffset) s := by
  have hdiv : (s.pmmBlockCount / 8).toNat = s.pmmBlockCount.toNat / 8 := BitVec.toNat_udiv
  have hlt := s.pmmBlockCount.isLt
  refine forPages_mapAll (by omega) fun t ht i => ?_
  have hva : s.pmmUsableAddr + s.hhdmoffset + i = s.pmmUsableAddr + i + s.hhdmoffset := by
    rw [BitVec.add_assoc, BitVec.add_comm s.hhdmoffset, ← BitVec.add_assoc]
  rw [ht.kernelPageMap, ht.pmmUsableAddr, ht.hhdmoffset, hva]
  rfl

theorem mapEntries_eq (h : LengthsOk s.memmap) : mapEntries s = mapAll s.kernelPageMap (entryOps s) s := by
  rw [mapEntries, entryOps]
  generalize s.memmap = M at h
  induction M generalizing s with
  | nil => rfl
  | cons e M ih =>
    rw [List.foldlM_cons, List.filterMap_cons]
    have hM : LengthsOk M := fun e' he' => h e' (List.mem_cons_of_mem _ he')
    cases hf : entryFlags e.type with
    | none => simp only [entrySpan, hf, Option.map_none, Loop.ok_bind, ih hM]
    | some flags =>
      have hlen := h e List.mem_cons_self (by rw [hf]; rfl)
      simp only [entrySpan, hf, Option.map_some, List.flatMap_cons, mapAll_append]
      rw [forPages_mapAll (g := fun j => ⟨e.base + j + s.hhdmoffset, e.base + j, flags⟩) hlen
        fun t ht i => by rw [ht.kernelPageMap, ht.hhdmoffset], Span.ops]
      refine Loop.bind_congr_ok fun t ht => ?_
      have only := mapAll_onlyMem ht
      rw [ih hM, only.kernelPageMap, only.hhdmoffset]

theorem mapSection_eq :
    mapSection k start stop flags s = mapAll s.kernelPageMap (sectionOps k start stop flags) s := by
  have hmod := alignUp_mod (x := stop)
  have hlt := (alignUp stop).isLt
  refine forPages_mapAll (by omega) fun t ht i => ?_
  rw [ht.kernelPageMap]

theorem mapIdentity_eq : mapIdentity s = mapAll s.kernelPageMap identityOps s :=
  forPages_mapAll (by decide) fun t ht i => by rw [ht.kernelPageMap]

theorem mapLapic_eq : mapLapic s = mapAll s.kernelPageMap [lapicOp s] s := by
  simp only [mapAll, List.foldlM_cons, List.foldlM_nil]
  exact (bind_pure _).symm

theorem newPageMap_onlyMem {s' : State} (h : newPageMap s = .ok s') :
    OnlyMem { s with kernelPageMap := s'.kernelPageMap } s' := by
  have halloc := pmmAllocBlock_onlyMem (s := s)
  simp only [newPageMap] at h
  split at h
  · cases h
  · rw [← Except.ok.inj h]
    refine OnlyMem.trans ?_ OnlyMem.memset
    rw [OnlyMem.memset.kernelPageMap]
    generalize (pmmAllocBlock s).2 = t at halloc
    rw [halloc]
    rfl

theorem newPageMap_memmap {s' : State} (h : newPageMap s = .ok s') : s'.memmap = s.memmap :=
  (newPageMap_onlyMem h).memmap

/-- `vmm_init` allocates the top-level table, maps everything and loads the result. -/
theorem vmmInit_eq (h0 : b.hhdm ≠ 0) (hk : b.kernelAddress = some k) (hlen : LengthsOk s.memmap) : vmmInit b s =
    (do
      let s ← newPageMap { s with hhdmoffset := b.hhdm }
      let s ← mapAll s.kernelPageMap (initOps k b.sections s) s
      return vmmSetCtx s s.kernelPageMap) := by
  simp only [vmmInit, if_neg h0, hk]
  refine Loop.bind_congr_ok fun s₁ h₁ => ?_
  have hlen₁ : LengthsOk s₁.memmap := by
    rw [newPageMap_memmap h₁]
    exact hlen
  simp only [initOps, kernelOps, mapAll_append, bind_assoc]
  rw [mapBitmap_eq]
  refine Loop.bind_congr_ok fun s₂ h₂ => ?_
  have o₂ := mapAll_onlyMem h₂
  rw [mapEntries_eq (by rw [o₂.memmap]; exact hlen₁)]
  have hentry : entryOps s₂ = entryOps s₁ := by rw [entryOps, entryOps, o₂.memmap, o₂.hhdmoffset]
  rw [hentry, o₂.kernelPageMap]
  refine Loop.bind_congr_ok fun s₃ h₃ => ?_
  have o₃ := o₂.trans (mapAll_onlyMem h₃)
  rw [mapSection_eq, o₃.kernelPageMap]
  refine Loop.bind_congr_ok fun s₄ h₄ => ?_
  have o₄ := o₃.trans (mapAll_onlyMem h₄)
  rw [mapSection_eq, o₄.kernelPageMap]
  refine Loop.bind_congr_ok fun s₅ h₅ => ?_
  have o₅ := o₄.trans (mapAll_onlyMem h₅)
  rw [mapSection_eq, o₅.kernelPageMap]
  refine Loop.bind_congr_ok fun s₆ h₆ => ?_
  have o₆ := o₅.trans (mapAll_onlyMem h₆)
  rw [mapIdentity_eq, o₆.kernelPageMap]
  refine Loop.bind_congr_ok fun s₇ h₇ => ?_
  have o₇ := o₆.trans (mapAll_onlyMem h₇)
  have hlapic : lapicOp s₇ = lapicOp s₁ := by rw [lapicOp, lapicOp, o₇.lapicAddr, o₇.hhdmoffset]
  rw [mapLapic_eq, o₇.kernelPageMap, hlapic]

/-- The loop rule of `vmm_init`: every step of a loop is a call of `vmm_map_page`. -/
theorem forPages_inv {body : State → Word → Except Halt State} {t t' : State} (P : State → Prop)
    (hbody : ∀ t i t', P t → body t i = .ok t' → P t') (ht : P t) (h : forPages start stop body t = .ok t') : P t' :=
  Loop.forLoop_inv P hbody ht h

/-- What `vmm_map_page` keeps holds from the new page map on; the identity map and the LAPIC come last. -/
theorem vmmInit_tail {s' : State} (P : State → Prop)
    (hstart : ∀ t, newPageMap { s with hhdmoffset := b.hhdm } = .ok t → P t)
    (hmap : ∀ t va pa flags t', P t → vmmMapPage t t.kernelPageMap va pa flags = .ok t' → P t')
    (h : vmmInit b s = .ok s') : ∃ t t₁ t₂, P t ∧ mapIdentity t = .ok t₁ ∧ mapLapic t₁ = .ok t₂ ∧
      s' = vmmSetCtx t₂ t₂.kernelPageMap := by
  have entries : ∀ {t t'}, P t → mapEntries t = .ok t' → P t' := fun {t t'} ht hloop => by
    refine Loop.foldlM_inv P (fun t₁ e t₂ _ ht₁ he => ?_) ht hloop
    split at he
    · exact forPages_inv P (fun _ _ _ => hmap _ _ _ _ _) ht₁ he
    · cases he
      exact ht₁
  simp only [vmmInit] at h
  split at h
  · cases h
  split at h
  · cases h
  obtain ⟨s₁, h₁, h⟩ := Loop.bind_eq_ok.mp h
  obtain ⟨s₂, h₂, h⟩ := Loop.bind_eq_ok.mp h
  obtain ⟨s₃, h₃, h⟩ := Loop.bind_eq_ok.mp h
  obtain ⟨s₄, h₄, h⟩ := Loop.bind_eq_ok.mp h
  obtain ⟨s₅, h₅, h⟩ := Loop.bind_eq_ok.mp h
  obtain ⟨s₆, h₆, h⟩ := Loop.bind_eq_ok.mp h
  obtain ⟨s₇, h₇, h⟩ := Loop.bind_eq_ok.mp h
  obtain ⟨s₈, h₈, h⟩ := Loop.bind_eq_ok.mp h
  have p₂ := forPages_inv P (fun _ _ _ => hmap _ _ _ _ _) (hstart s₁ h₁) h₂
  have p₄ := forPages_inv P (fun _ _ _ => hmap _ _ _ _ _) (entries p₂ h₃) h₄
  have p₅ := forPages_inv P (fun _ _ _ => hmap _ _ _ _ _) p₄ h₅
  have p₆ := forPages_inv P (fun _ _ _ => hmap _ _ _ _ _) p₅ h₆
  exact ⟨s₆, s₇, s₈, p₆, h₇, h₈, (Except.ok.inj h).symm⟩

/-- The invariant rule of `vmm_init`: what `vmm_map_page` keeps holds from the new page map to the load. -/
theorem vmmInit_inv {s' : State} (P : State → Prop)
    (hstart : ∀ t, newPageMap { s with hhdmoffset := b.hhdm } = .ok t → P t)
    (hmap : ∀ t va pa flags t', P t → vmmMapPage t t.kernelPageMap va pa flags = .ok t' → P t')
    (h : vmmInit b s = .ok s') : ∃ t, P t ∧ s' = vmmSetCtx t t.kernelPageMap := by
  obtain ⟨t, t₁, t₂, ht, hidentity, hlapic, hs'⟩ := vmmInit_tail P hstart hmap h
  exact ⟨t₂, hmap _ _ _ _ _ (forPages_inv P (fun _ _ _ => hmap _ _ _ _ _) ht hidentity) hlapic, hs'⟩

/-! ### The state after the sequence of `_start` -/

variable {mem : Memory} {s₀ s₁ s' : State}

theorem initOps_congr (hmap : s'.memmap = s.memmap) (haddr : s'.pmmUsableAddr = s.pmmUsableAddr)
    (hcount : s'.pmmBlockCount = s.pmmBlockCount) (hoff : s'.hhdmoffset = s.hhdmoffset)
    (hlapic : s'.lapicAddr = s.lapicAddr) : initOps k sec s' = initOps k sec s := by
  simp only [initOps, bitmapSpan, entryOps, lapicOp, hmap, haddr, hcount, hoff, hlapic]

theorem startMemory_memmap (hM : UsableOk M) (hb : b.memmap = some M) (h : startMemory b d mem = .ok s) :
    s.memmap = M := by
  obtain ⟨s₀, hinit, h⟩ := Loop.bind_eq_ok.mp h
  obtain ⟨s₁, hacpi, h⟩ := Loop.bind_eq_ok.mp h
  have hmap₁ : s₁.memmap = M := by rw [initAcpi_globals hacpi, (pmmInit_ready hM hb hinit).memmap]
  obtain ⟨t, ht, rfl⟩ := vmmInit_inv (fun t => t.memmap = M) (fun t ht => by rw [newPageMap_memmap ht, hmap₁])
    (fun t _ _ _ t' ht h => by rw [(vmmMapPage_onlyMem h).memmap, ht]) h
  exact ht

/-- What `_start` leaves behind when `pmm_init`, which returned `s₀`, `init_acpi` and `vmm_init` are done. -/
structure Booted (b : Boot) (M : List MemmapEntry) (k : KernelAddress) (s₀ s : State) : Prop where
  memmap : s.memmap = M
  addr : s.pmmUsableAddr = usableAddr M
  bitmap : s.pmmBitmap = usableAddr M
  count : s.pmmBlockCount.toNat = blockCount M
  hhdm : s.hhdmoffset = b.hhdm
  cr3 : s.cr3.toNat = s.root
  wf : WellFormed s s.root
  entries : ∀ va, leaf s.mem s.root va =
    LastWrite.apply ((initOps k b.sections s).map MapOp.write) (fun _ => 0) (vpn va)
  acpi : ∃ s₁, lookupTables b s₀ = .ok s₁ ∧ s.madt = s₁.madt ∧ s.fadt = s₁.fadt ∧
    s.lapicAddr = s₁.load32 .identity (s₁.madt + offsetofLapicaddr)

theorem startMemory_booted (hM : UsableOk M) (hb : b.memmap = some M) (hk : b.kernelAddress = some k)
    (hlen : LengthsOk M) (h : startMemory b d mem = .ok s) :
    ∃ s₀, pmmInit b (entryState mem) = .ok s₀ ∧ Booted b M k s₀ s := by
  obtain ⟨s₀, hinit, h⟩ := Loop.bind_eq_ok.mp h
  obtain ⟨s₁, hacpi, h⟩ := Loop.bind_eq_ok.mp h
  have ready := pmmInit_ready hM hb hinit
  have hap := ready.apart hM
  obtain ⟨t, htables, hs₁⟩ := initAcpi_tables hacpi
  have hmadt : s₁.madt = t.madt := by rw [hs₁]
  have hfadt : s₁.fadt = t.fadt := by rw [hs₁]
  have hlapic : s₁.lapicAddr = t.load32 .identity (t.madt + offsetofLapicaddr) := by rw [hs₁]
  have hglobals := initAcpi_globals hacpi
  have hmap₁ : s₁.memmap = M := by rw [hglobals, ready.memmap]
  have h0 : b.hhdm ≠ 0 := by
    intro h0
    simp only [vmmInit, if_pos h0] at h
    cases h
  rw [vmmInit_eq h0 hk (by rw [hmap₁]; exact hlen)] at h
  obtain ⟨s₂, hnew, h⟩ := Loop.bind_eq_ok.mp h
  obtain ⟨s₃, hall, h⟩ := Loop.bind_eq_ok.mp h
  cases h
  have hap₁ : PmmApart { s₁ with hhdmoffset := b.hhdm } := by
    rw [hglobals]
    exact ⟨hap.clearApart, hap.count⟩
  obtain ⟨n, hnm⟩ := newPageMap_newMap hap₁ hnew
  have hwf₂ : WellFormed s₂ s₂.root := by
    rw [hnm.root]
    exact hnm.wf
  rw [← tableVirt_root] at hall
  have ext := mapAll_extends hwf₂ hall
  have hroot₃ := ext.only.root
  have hleaf := mapAll_leaf (f := fun _ => 0) hwf₂ hall fun va => by rw [hnm.root, hnm.empty]
  refine ⟨s₀, hinit, ?_⟩
  have haddr : s₃.pmmUsableAddr = usableAddr M := by
    rw [ext.only.pmmUsableAddr, hnm.pmmUsableAddr, ← ready.addr, hglobals]
  have hbitmap : s₃.pmmBitmap = usableAddr M := by
    rw [ext.only.pmmBitmap, hnm.pmmBitmap, ← ready.bitmap, hglobals]
  have hcount : s₃.pmmBlockCount.toNat = blockCount M := by
    rw [ext.only.pmmBlockCount, hnm.pmmBlockCount, ← ready.count, hglobals]
  have hoff : s₃.hhdmoffset = b.hhdm := by rw [ext.only.hhdmoffset, hnm.hhdmoffset]
  refine ⟨by rw [← hmap₁]; exact ext.only.memmap.trans hnm.memmap, haddr, hbitmap, hcount, hoff, rfl, ?_, ?_, t, htables,
    (ext.only.madt.trans hnm.madt).trans hmadt, (ext.only.fadt.trans hnm.fadt).trans hfadt,
    (ext.only.lapicAddr.trans hnm.lapicAddr).trans hlapic⟩
  · have hwf₃ := ext.wf
    rw [← hroot₃] at hwf₃
    exact ⟨hwf₃.tree, hwf₃.used, hwf₃.apart, hwf₃.clearApart, hwf₃.count⟩
  · intro va
    have hops : initOps k b.sections (vmmSetCtx s₃ s₃.kernelPageMap) = initOps k b.sections s₂ :=
      initOps_congr ext.only.memmap ext.only.pmmUsableAddr ext.only.pmmBlockCount ext.only.hhdmoffset ext.only.lapicAddr
    rw [hops, ← hleaf]
    exact congrArg (fun r => leaf s₃.mem r va) hroot₃

/-- `vmm_init` returns when there is a block for the top-level table and three for each region of 2 MiB in
    which it maps a page. -/
theorem vmmInit_ok {R : Finset Nat} (hap : PmmApart s) (h0 : 0 ∉ s.clear) (hk : b.kernelAddress = some k)
    (hlen : LengthsOk s.memmap) (hh : HhdmOk { s with hhdmoffset := b.hhdm })
    (hR : ∀ op ∈ initOps k b.sections { s with hhdmoffset := b.hhdm }, op.va.toNat / 2 ^ 21 ∈ R)
    (hcard : 3 * R.card + 1 ≤ s.clear.card) :
    ∃ s', vmmInit b s = .ok s' ∧ s.clear.card ≤ s'.clear.card + (3 * R.card + 1) := by
  have hne : b.hhdm ≠ 0 := by
    intro h
    have := hh.1
    simp [h] at this
  have hap₁ : PmmApart { s with hhdmoffset := b.hhdm } := ⟨hap.clearApart, hap.count⟩
  obtain ⟨s₁, hnew⟩ := newPageMap_ok hap₁ h0 (Finset.card_pos.mp (show 0 < s.clear.card by omega))
  obtain ⟨n, hnm⟩ := newPageMap_newMap hap₁ hnew
  have hwf : WellFormed s₁ s₁.root := by
    rw [hnm.root]
    exact hnm.wf
  have hops : initOps k b.sections s₁ = initOps k b.sections { s with hhdmoffset := b.hhdm } :=
    initOps_congr hnm.memmap hnm.pmmUsableAddr hnm.pmmBlockCount hnm.hhdmoffset hnm.lapicAddr
  have hclear : s₁.clear = s.clear.erase n := hnm.clear
  have hblock : n ∈ s.clear := hnm.block
  -- One path for each region.
  have hP : ∀ op ∈ initOps k b.sections s₁, upper op.va ∈ R.image fun r => upper (BitVec.ofNat 64 (r * 2 ^ 21)) := by
    intro op hop
    rw [hops] at hop
    refine Finset.mem_image.mpr ⟨_, hR op hop, upper_eq_of_region ?_⟩
    have hlt := op.va.isLt
    rw [BitVec.toNat_ofNat]
    omega
  have hmiss : (missing s₁.mem s₁.root (initOps k b.sections s₁)).card ≤ R.card :=
    (card_missing_le hP).trans Finset.card_image_le
  have hcard₁ : s₁.clear.card + 1 = s.clear.card := by rw [hclear, Finset.card_erase_add_one hblock]
  obtain ⟨s₂, hall, hdrop⟩ := mapAll_ok hwf
    (by rw [HhdmOk, hnm.hhdmoffset]; exact hh) (by rw [hclear]; exact fun h => h0 (Finset.mem_of_mem_erase h))
    (show 3 * (missing s₁.mem s₁.root (initOps k b.sections s₁)).card ≤ _ by omega)
  rw [tableVirt_root] at hall
  refine ⟨vmmSetCtx s₂ s₂.kernelPageMap, ?_, ?_⟩
  · rw [vmmInit_eq hne hk hlen, hnew, Loop.ok_bind, hall, Loop.ok_bind]
    rfl
  · have hclear₂ : (vmmSetCtx s₂ s₂.kernelPageMap).clear = s₂.clear := rfl
    rw [hclear₂]
    omega

end

end Neobird64
