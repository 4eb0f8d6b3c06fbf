import Neobird64.Theorems.VmmRefinement
import Neobird64.Theorems.Pointers

/-! The kernel edits its page tables and its bitmap through virtual addresses, which these tables translate. As
    long as no call maps or frees one of the pages in which it does so, each of its pointers leads to the
    physical bytes that the model of its functions takes it to lead to. -/

namespace Neobird64
open State Paging PathTree

/-- Through the address `p` the processor reads and writes the byte at `a`. -/
def Reaches (s : State) (p : Word) (a : Nat) : Prop :=
  Paging.translate s.mem s.cr3.toNat p = some a ∧
    ∀ tr, walk s.mem s.cr3.toNat p = some tr → tr.writable = true

/-- The pointers to page tables, to the blocks that may be handed out, and to the bitmap lead where `phys` says. The
    address of block 0 is NULL, through which no caller of `pmm_alloc_block` writes. -/
structure SelfMapped (s : State) : Prop where
  tables : ∀ p t, Table s.mem s.root p t → ∀ i < 4096,
    Reaches s (tableVirt s t + BitVec.ofNat 64 i) (s.phys .hhdm (tableVirt s t + BitVec.ofNat 64 i))
  blocks : ∀ n ∈ s.clear, n ≠ 0 → ∀ i < 4096,
    Reaches s (blockAddr n + s.hhdmoffset + BitVec.ofNat 64 i) (s.phys .hhdm (blockAddr n + s.hhdmoffset + BitVec.ofNat 64 i))
  bitmap : ∀ i < bitmapBytes s,
    Reaches s (s.pmmBitmap + BitVec.ofNat 64 i) (s.phys .identity (s.pmmBitmap + BitVec.ofNat 64 i))

/-- The pages in which the memory manager works: usable memory at its HHDM addresses, and the bitmap at its own. -/
def ManagerPage (b : Boot) (M : List MemmapEntry) (v : Nat) : Prop :=
  (∃ a, a / 4096 ∈ usablePages M ∧ v = vpn (BitVec.ofNat 64 (b.hhdm.toNat + a))) ∨
  ∃ i < bitmapSize M, v = vpn (usableAddr M + BitVec.ofNat 64 i)

/-- The pages in which the kernel runs: its image, and the memory of the boot loader, where its stack is, at HHDM
    addresses. -/
def ImagePage (b : Boot) (M : List MemmapEntry) (v : Nat) : Prop :=
  (∃ va, InSection b.sections.textStart b.sections.dataEnd va ∧ v = vpn va) ∨
  ∃ e ∈ M, e.type = .bootloaderReclaimable ∧ ∃ a, e.Holds a ∧ v = vpn (BitVec.ofNat 64 (b.hhdm.toNat + a))

/-- The page is one of the memory manager or of the kernel. -/
def KernelPage (b : Boot) (M : List MemmapEntry) (v : Nat) : Prop := ManagerPage b M v ∨ ImagePage b M v

/-- The pointers of the memory manager lead where they should, and the kernel's own pages are mapped as in `s₁`. -/
structure Intact (b : Boot) (M : List MemmapEntry) (s₁ s : State) : Prop where
  pointers : SelfMapped s
  image : ∀ va, ImagePage b M (vpn va) → walk s.mem s.cr3.toNat va = walk s₁.mem s₁.cr3.toNat va

/-- The call leaves the pages of the kernel mapped as they are. -/
def VmmCall.Spares (b : Boot) (M : List MemmapEntry) : VmmCall → Prop
  | .map va _ _ => ¬KernelPage b M (vpn va)
  | .freePage va => ¬KernelPage b M (vpn va)
  | _ => True

/-- The call is one that clients may make, and leaves the pages of the kernel alone. -/
def AddressSpace.Permits (b : Boot) (M : List MemmapEntry) (A : AddressSpace) (c : VmmCall) : Prop := A.Owns c ∧ c.Spares b M

/-- The sequence of `_start` leaves `s`, on a machine as the boot protocol promises it and with the bitmap in the
    identity map. -/
structure Managed (b : Boot) (d : Devices) (M : List MemmapEntry) (k : KernelAddress) (mem : Memory) (s : State) : Prop where
  entries : EntriesOk M
  memmap : b.memmap = some M
  kernel : b.kernelAddress = some k
  layout : HhdmLayout b s
  window : b.hhdm.toNat + 2 ^ 43 ≤ 2 ^ 64
  bitmap : InIdentity (usableAddr M) (bitmapSize M)
  start : startMemory b d mem = .ok s

section
variable {s s' : State} {A A' : AddressSpace} {c : VmmCall} {b : Boot} {d : Devices} {M : List MemmapEntry} {k : KernelAddress}
variable {s₀ : State} {v a n : Nat} {p : Word} {out : List Word}

theorem VmmCall.Spares.page_ne (hc : c.Spares b M) (hv : KernelPage b M v) : c.page ≠ some v := by
  cases c with
  | map va pa flags =>
    rintro ⟨⟩
    exact hc hv
  | freePage va =>
    rintro ⟨⟩
    exact hc hv
  | _ => exact nofun

/-! ### The state that `vmm_init` leaves -/

/-- A byte that an entry of the loaded map leads to. -/
theorem reaches_of_leaf {pa flags va : Word} (wf : WellFormed s s.root) (hcr3 : s.cr3.toNat = s.root)
    (hhalf : Low va ∨ High va) (hleaf : leaf s.mem s.root va = pa ||| flags) (hpa : pa.toNat < 2 ^ 52)
    (hal : pa.toNat % 4096 = 0) (hflags : flags &&& addrMask = 0) (hpresent : present flags = true)
    (hwrite : writable flags = true) (ha : a = pa.toNat + va.toNat % 4096) : Reaches s va a := by
  have hwalk := walk_of_leaf wf hleaf hpa hal hflags hpresent
  rw [← hcr3] at hwalk
  refine ⟨?_, fun tr htr => ?_⟩
  · rw [Paging.translate, if_pos hhalf, hwalk, Option.map_some, ha]
    rfl
  · rw [hwalk] at htr
    cases htr
    exact hwrite

/-- What the entry of an address decides does not change while the entry does not. -/
theorem Represents.reaches_congr {s₁ : State} {A₁ : AddressSpace} (h₁ : Represents s₀ s₁ A₁) (h : Represents s₀ s A)
    {va : Word} (hv : A.pages (vpn va) = A₁.pages (vpn va)) (hr : Reaches s₁ va a) : Reaches s va a := by
  have hwalk : walk s.mem s.cr3.toNat va = walk s₁.mem s₁.cr3.toNat va := by
    rw [h.walk_eq, h₁.walk_eq, AddressSpace.translate, AddressSpace.translate, hv]
  rw [Reaches, Paging.translate, hwalk, ← Paging.translate]
  exact hr

section
variable (h : HhdmLayout b s) (hB : Booted b M k s₀ s)
include h hB

theorem HhdmLayout.reaches_usable (hE : EntriesOk M) (ha : a / 4096 ∈ usablePages M) :
    Reaches s (BitVec.ofNat 64 (b.hhdm.toNat + a)) a := by
  obtain ⟨e, he, hu, hn⟩ := mem_usablePages.mp ha
  have ho : e.Owned := Or.inl hu
  have hin := hE.usableOk.holds_of_mem he hu hn rfl
  have hlt := hE.usableOk.lt_of_mem ha
  have hsp : ⟨e.base, e.length, PTE_BIT_PRESENT ||| PTE_BIT_READ_WRITE⟩ ∈ spans s :=
    mem_spans.mpr (Or.inr (Or.inl ⟨e, hB.memmap ▸ he, entrySpan_of_owned ho⟩))
  have hva := h.directVa hsp (a := a) hin
  have hal := h.aligned
  have hpage : (alignDown (BitVec.ofNat 64 a)).toNat = a / 4096 * 4096 := by
    rw [alignDown_toNat, BitVec.toNat_ofNat]
    omega
  exact reaches_of_leaf hB.wf hB.cr3 (Or.inr (h.directHigh hsp (a := a) hin))
    (h.leaf_direct hB hE he ho hin) (by omega) (by omega) (by decide) (by decide) (by decide) (by rw [hpage, hva]; omega)

theorem HhdmLayout.reaches_identity {va : Word} (hlo : 0x1000 ≤ va.toNat) (hhi : va.toNat < 2 ^ 32) :
    Reaches s va va.toNat := by
  have hdown := alignDown_toNat (x := va)
  exact reaches_of_leaf hB.wf hB.cr3 (Or.inl (by rw [Low]; omega)) (h.leaf_identity hB hlo hhi) (by omega) (by omega)
    (by decide) (by decide) (by decide) (by omega)

end

/-! ### After a run -/

/-- A block that was free after `pmm_init` is usable memory. -/
theorem FrameInv.usable_of_not_init {held : Finset Nat} (inv : FrameInv s₀ s held) (ready : PmmReady M s₀)
    (hlt : n < s.scanned) (hn : n ∉ usedBlocks s₀) : n ∈ usablePages M := by
  rw [inv.scanned] at hlt
  have hfree : n ∈ s₀.clear := by
    by_contra hused
    exact hn (mem_usedBlocks.mpr ⟨hlt, hused⟩)
  exact ((ready.clear n hlt).mp (mem_clear.mp hfree).2).1

/-- A pointer into the HHDM. -/
theorem hhdm_pointer {x : Word} {i : Nat} (ha : x.toNat + i = a) (hlt : a < 2 ^ 43) :
    x + s.hhdmoffset + BitVec.ofNat 64 i = BitVec.ofNat 64 (s.hhdmoffset.toNat + a) ∧
      s.phys .hhdm (x + s.hhdmoffset + BitVec.ofNat 64 i) = a := by
  have hoff := s.hhdmoffset.isLt
  have heq : x + s.hhdmoffset + BitVec.ofNat 64 i = BitVec.ofNat 64 (s.hhdmoffset.toNat + a) := by
    apply BitVec.eq_of_toNat_eq
    rw [BitVec.toNat_add, BitVec.toNat_add, BitVec.toNat_ofNat, BitVec.toNat_ofNat]
    omega
  refine ⟨heq, ?_⟩
  rw [heq, phys, BitVec.toNat_sub, BitVec.toNat_ofNat]
  omega

/-- A change outside of the tables that frees no block but block 0. -/
theorem SelfMapped.congr (h : SelfMapped s) (hcr3 : s.cr3.toNat = s.root) (wf : WellFormed s s.root)
    (wf' : WellFormed s' s.root) (only : OnlyMem s s')
    (hm : ∀ p t a, Table s.mem s.root p t → t ≤ a → a < t + 4096 → s'.mem a = s.mem a)
    (hclear : ∀ n ∈ s'.clear, n ≠ 0 → n ∈ s.clear) : SelfMapped s' := by
  have hoff := only.hhdmoffset
  have hwalk : ∀ va, walk s'.mem s'.cr3.toNat va = walk s.mem s.cr3.toNat va := fun va => by
    rw [only.cr3, hcr3, wf'.tree.walk, wf.tree.walk, leaf_eq_of_tables hm]
  have hreach : ∀ {p a}, Reaches s p a → Reaches s' p a := fun {p a} hp => by
    rw [Reaches, Paging.translate, hwalk, ← Paging.translate]
    exact hp
  have hphys : ∀ p, s'.phys .hhdm p = s.phys .hhdm p := fun p => by rw [phys, phys, hoff]
  refine ⟨fun p t ht i hi => ?_, fun n hn hne i hi => ?_, fun i hi => ?_⟩
  · rw [only.root, table_iff_of_tables hm] at ht
    rw [only.tableVirt, hphys]
    exact hreach (h.tables p t ht i hi)
  · rw [hoff, hphys]
    exact hreach (h.blocks n (hclear n hn hne) hne i hi)
  · rw [only.bitmapBytes] at hi
    rw [only.pmmBitmap]
    exact hreach (h.bitmap i hi)

/-- The kernel's own pages stay in a change outside of the tables. -/
theorem Intact.congr {s₁ : State} (h : Intact b M s₁ s) (hcr3 : s.cr3.toNat = s.root) (wf : WellFormed s s.root)
    (wf' : WellFormed s' s.root) (only : OnlyMem s s')
    (hm : ∀ p t a, Table s.mem s.root p t → t ≤ a → a < t + 4096 → s'.mem a = s.mem a)
    (hclear : ∀ n ∈ s'.clear, n ≠ 0 → n ∈ s.clear) : Intact b M s₁ s' where
  pointers := h.pointers.congr hcr3 wf wf' only hm hclear
  image va hva := by
    rw [← h.image va hva, only.cr3, hcr3, wf'.tree.walk, wf.tree.walk, leaf_eq_of_tables hm]

/-- The machine and the address space in a run from `s` that spares the pages of the kernel. -/
structure Sparing (b : Boot) (M : List MemmapEntry) (s₀ s t : State) (A : AddressSpace) : Prop where
  represents : Represents s₀ t A
  only : OnlyMem s t
  pages : ∀ v, KernelPage b M v → A.pages v = (addressSpace s).pages v

theorem Sparing.step {t : State} (h : Sparing b M s₀ s t A) (hc : A.Permits b M c) :
    Transducer.Agree (Sparing b M s₀ s) (c.exec t) (A.exec c) :=
  (h.represents.step hc.1).imp fun _ _ _ ht hA hrep =>
    ⟨hrep, h.only.trans (VmmCall.exec_onlyMem ht), fun v hv => (AddressSpace.exec_pages (hc.2.page_ne hv) hA).trans (h.pages v hv)⟩

variable {mem : Memory} {calls : List VmmCall}

namespace Managed
variable (h : Managed b d M k mem s)
include h

theorem sparing : ∃ s₀, PmmReady M s₀ ∧ Sparing b M s₀ s s (addressSpace s) := by
  obtain ⟨s₀, ready, hrep⟩ := startMemory_represents h.entries.usableOk h.memmap h.window h.start
  exact ⟨s₀, ready, hrep, OnlyMem.refl s, fun _ _ => rfl⟩

/-- What `vmm_init` maps for the memory manager stays mapped. -/
theorem selfMapped (ready : PmmReady M s₀) (hs : Sparing b M s₀ s s (addressSpace s)) (hs' : Sparing b M s₀ s s' A') :
    SelfMapped s' := by
  have hM := h.entries.usableOk
  have hmem := startMemory_memmap hM h.memmap h.start
  obtain ⟨t₀, -, hB⟩ := startMemory_booted hM h.memmap h.kernel (hmem ▸ h.layout.lengthsOk) h.start
  have only := hs'.only
  have inv := hs'.represents.inv
  have hoff' : s'.hhdmoffset = b.hhdm := only.hhdmoffset.trans (startMemory_hhdm h.start).1
  have usable : ∀ {a : Nat}, a / 4096 ∈ usablePages M → Reaches s' (BitVec.ofNat 64 (b.hhdm.toNat + a)) a := fun ha =>
    hs.represents.reaches_congr hs'.represents (hs'.pages _ (Or.inl (Or.inl ⟨_, ha, rfl⟩)))
      (h.layout.reaches_usable hB h.entries ha)
  have block : ∀ {x : Word} {i : Nat}, i < 4096 → x.toNat % 4096 = 0 → x.toNat / 4096 ∈ usablePages M →
      Reaches s' (x + s'.hhdmoffset + BitVec.ofNat 64 i) (s'.phys .hhdm (x + s'.hhdmoffset + BitVec.ofNat 64 i)) := by
    intro x i hi hmod hx
    have hlt := hM.lt_of_mem hx
    obtain ⟨hptr, hphys⟩ := hhdm_pointer (s := s') (x := x) (i := i) rfl (by omega)
    rw [hphys, hptr, hoff']
    exact usable (by rwa [show (x.toNat + i) / 4096 = x.toNat / 4096 by omega])
  refine ⟨fun p t ht i hi => ?_, fun n hn _ i hi => ?_, fun i hi => ?_⟩
  · have hmod := inv.wf.table_mod ht
    have hlt := inv.wf.table_lt ht
    have htn : (BitVec.ofNat 64 t).toNat = t := by
      rw [BitVec.toNat_ofNat]
      omega
    refine block hi (by rw [htn]; exact hmod) ?_
    rw [htn]
    refine inv.usable_of_not_init ready (inv.wf.used p t ht).1 fun hu => ?_
    exact Set.disjoint_left.mp inv.accounted.initTables hu
      (show t / 4096 ∈ tableBlocks s' from ⟨p, by rwa [show t / 4096 * 4096 = t by omega]⟩)
  · have hlt := (mem_clear.mp hn).1
    have hscan := inv.wf.scanned_le
    have haddr := blockAddr_toNat (n := n) (by omega)
    refine block hi (by omega) ?_
    rw [show (blockAddr n).toNat / 4096 = n by omega]
    exact inv.usable_of_not_init ready hlt (inv.clear_cases hn).1
  · have hptr : s'.pmmBitmap = usableAddr M := only.pmmBitmap.trans hB.bitmap
    have hbytes : bitmapBytes s' = bitmapSize M := bitmapBytes_of_count (by rw [only.pmmBlockCount, hB.count])
    rw [hbytes] at hi
    rw [hptr, phys]
    have hadd : (usableAddr M + BitVec.ofNat 64 i).toNat = (usableAddr M).toNat + i := by
      have hsize := hM.bitmapSize_le
      rw [BitVec.toNat_add, BitVec.toNat_ofNat]
      rcases h.bitmap with hz | ⟨hlo, hhi⟩ <;> omega
    refine hs.represents.reaches_congr hs'.represents (hs'.pages _ (Or.inl (Or.inr ⟨i, hi, rfl⟩)))
      (h.layout.reaches_identity hB ?_ ?_)
    all_goals
      rw [hadd]
      rcases h.bitmap with hz | ⟨hlo, hhi⟩ <;> omega

theorem intact (ready : PmmReady M s₀) (hs : Sparing b M s₀ s s (addressSpace s)) (hs' : Sparing b M s₀ s s' A') :
    Intact b M s s' where
  pointers := h.selfMapped ready hs hs'
  image va hva := by
    rw [hs'.represents.walk_eq, hs.represents.walk_eq, AddressSpace.translate, AddressSpace.translate, hs'.pages _ (Or.inr hva)]

theorem run_sparing (hcalls : Transducer.Allowed AddressSpace.exec (AddressSpace.Permits b M) (addressSpace s) calls)
    (hrun : Transducer.run VmmCall.exec s calls = .ok (s', out)) :
    ∃ s₀ A', PmmReady M s₀ ∧ Sparing b M s₀ s s (addressSpace s) ∧ Sparing b M s₀ s s' A' := by
  obtain ⟨s₀, ready, hs⟩ := h.sparing
  have hagree := Transducer.run_agree (fun _ _ _ ht hc => ht.step hc) hs hcalls
  rw [hrun] at hagree
  obtain ⟨A', -, hs'⟩ := hagree.of_ok
  exact ⟨s₀, A', ready, hs, hs'⟩

end Managed

end

/-! ### A machine with 64 MiB -/

section
variable {s₀ s₁ s : State}

theorem AcpiStart.managed (h : AcpiStart s₀ s₁ s) : ∃ k, Managed (sampleBoot acpiMap) acpiDevices acpiMap k acpiMemory s := by
  obtain ⟨k, -, hspans, -⟩ := h.booted
  refine ⟨_, entriesOk_acpiMap, rfl, rfl, acpiMap_windows.layout hspans, by decide, ?_, h.start⟩
  rw [InIdentity, acpiMap_like.addr, bitmapSize, acpiMap_like.count]
  decide

/-- A page outside of the HHDM and of the identity map. -/
theorem spares_sample (pa flags : Word) : (VmmCall.map 0xffff900000000000 pa flags).Spares (sampleBoot acpiMap) acpiMap := by
  have hoff : (sampleBoot acpiMap).hhdm.toNat = 2 ^ 64 - 2 ^ 47 := by decide
  have hva : (0xffff900000000000 : Word).toNat = 2 ^ 64 - 2 ^ 47 + 2 ^ 44 := by decide
  rintro ((⟨a, ha, hv⟩ | ⟨i, hi, hv⟩) | ⟨va, ⟨hlo, -⟩, hv⟩ | ⟨e, he, htype, -⟩)
  · have hlt := acpiMap_like.ok.lt_of_mem ha
    rw [vpn, vpn, hva, hoff, BitVec.toNat_ofNat] at hv
    omega
  · have haddr : (0x100000 : Word).toNat = 0x100000 := rfl
    rw [bitmapSize, acpiMap_like.count] at hi
    rw [vpn, vpn, hva, acpiMap_like.addr, BitVec.toNat_add, BitVec.toNat_ofNat, haddr] at hv
    omega
  · rw [textStart_sample] at hlo
    rw [vpn, vpn, hva] at hv
    omega
  · have hnone : ∀ e ∈ acpiMap, e.type ≠ .bootloaderReclaimable := by decide
    exact hnone e he htype

theorem permitted_sample (A : AddressSpace) (pa flags : Word) : Transducer.Allowed AddressSpace.exec
    (AddressSpace.Permits (sampleBoot acpiMap) acpiMap) A [.alloc, .map 0xffff900000000000 pa flags] :=
  ⟨⟨trivial, trivial⟩, fun _ _ => ⟨⟨trivial, spares_sample pa flags⟩, fun _ _ => trivial⟩⟩

theorem AcpiStart.intact_run (h : AcpiStart s₀ s₁ s) {s' : State} {out : List Word} (calls : List VmmCall)
    (hcalls : Transducer.Allowed AddressSpace.exec (AddressSpace.Permits (sampleBoot acpiMap) acpiMap) (addressSpace s) calls)
    (hrun : Transducer.run VmmCall.exec s calls = .ok (s', out)) : Intact (sampleBoot acpiMap) acpiMap s s' := by
  obtain ⟨k, hmanaged⟩ := h.managed
  obtain ⟨t₀, A', ready, hs, hs'⟩ := hmanaged.run_sparing hcalls hrun
  exact hmanaged.intact ready hs hs'

theorem AcpiStart.intact (h : AcpiStart s₀ s₁ s) : Intact (sampleBoot acpiMap) acpiMap s s :=
  h.intact_run [] trivial rfl

/-- A client takes a block, and has a page mapped to it. -/
theorem AcpiStart.exists_map (h : AcpiStart s₀ s₁ s) : ∃ n s', (pmmAllocBlock s).1 = blockAddr n ∧ blockAddr n ≠ 0 ∧ n < 2 ^ 31 ∧
    vmmMapPage (pmmAllocBlock s).2 (pmmAllocBlock s).2.kernelPageMap 0xffff900000000000 (blockAddr n)
      (PTE_BIT_PRESENT ||| PTE_BIT_READ_WRITE) = .ok s' ∧
    leaf s'.mem s'.root 0xffff900000000000 = blockAddr n ||| (PTE_BIT_PRESENT ||| PTE_BIT_READ_WRITE) ∧
    Transducer.run VmmCall.exec s [.alloc, .map 0xffff900000000000 (blockAddr n) (PTE_BIT_PRESENT ||| PTE_BIT_READ_WRITE)] =
      .ok (s', [blockAddr n]) := by
  obtain ⟨t, -, h0, inv⟩ := startMemory_frameInv acpiMap_like.ok rfl h.start
  obtain ⟨n, s', haddr, hne, hmap, hlt, -, hleaf⟩ := inv.exists_map h0 h.hhdmOk h.blocks 0xffff900000000000
  refine ⟨n, s', haddr, hne, hlt, hmap, hleaf, ?_⟩
  have halloc : VmmCall.alloc.exec s = .ok ((pmmAllocBlock s).2, [blockAddr n]) := by rw [VmmCall.exec, haddr]
  rw [Transducer.run_cons_of_ok halloc, Transducer.run_singleton, VmmCall.exec, hmap]
  rfl

end

/-! ### Runs of calls -/

section
variable {b : Boot} {d : Devices} {M : List MemmapEntry} {k : KernelAddress} {mem : Memory} {s s' : State} {out : List Word}
variable {calls : List VmmCall}

/-- In every run after `vmm_init` in which clients free and write their own blocks and leave the pages of the kernel
    alone, each pointer of the memory manager leads to the bytes that it takes it to lead to, and may
    be written through; and block 0 is never free. -/
theorem vmmRun_selfMapped (h : Managed b d M k mem s)
    (hcalls : Transducer.Allowed AddressSpace.exec (AddressSpace.Permits b M) (addressSpace s) calls)
    (hrun : Transducer.run VmmCall.exec s calls = .ok (s', out)) : SelfMapped s' ∧ 0 ∉ s'.clear := by
  obtain ⟨s₀, A', ready, hs, hs'⟩ := h.run_sparing hcalls hrun
  exact ⟨h.selfMapped ready hs hs', hs'.represents.zero_not_clear⟩

theorem vmmRun_selfMapped_sample : ∃ s n s', startMemory (sampleBoot acpiMap) acpiDevices acpiMemory = .ok s ∧
    Transducer.run VmmCall.exec s [.alloc, .map 0xffff900000000000 (blockAddr n) (PTE_BIT_PRESENT ||| PTE_BIT_READ_WRITE)] =
      .ok (s', [blockAddr n]) ∧ SelfMapped s' ∧ 0 ∉ s'.clear := by
  obtain ⟨s₀, s₁, s, h⟩ := startMemory_acpiMap
  obtain ⟨k, hmanaged⟩ := h.managed
  obtain ⟨n, s', -, -, -, -, -, hrun⟩ := h.exists_map
  exact ⟨s, n, s', h.start, hrun, vmmRun_selfMapped hmanaged (permitted_sample _ _ _) hrun⟩

/-- In these runs the calls return what they return on the address space and panic when those do, and the processor
    translates every address as the address space says. -/
theorem vmmRun_refines (h : Managed b d M k mem s)
    (hcalls : Transducer.Allowed AddressSpace.exec (AddressSpace.Permits b M) (addressSpace s) calls) :
    Transducer.Agree (fun s' A' => SelfMapped s' ∧ ∀ va, walk s'.mem s'.cr3.toNat va = A'.translate va)
      (Transducer.run VmmCall.exec s calls) (Transducer.run AddressSpace.exec (addressSpace s) calls) := by
  obtain ⟨s₀, ready, hs⟩ := h.sparing
  exact (Transducer.run_agree (fun _ _ _ ht hc => ht.step hc) hs hcalls).imp
    fun _ _ _ _ _ hs' => ⟨h.selfMapped ready hs hs', hs'.represents.walk_eq⟩

theorem vmmRun_refines_sample : ∃ s n s' A', startMemory (sampleBoot acpiMap) acpiDevices acpiMemory = .ok s ∧
    Transducer.run VmmCall.exec s [.alloc, .map 0xffff900000000000 (blockAddr n) (PTE_BIT_PRESENT ||| PTE_BIT_READ_WRITE)] =
      .ok (s', [blockAddr n]) ∧
    Transducer.run AddressSpace.exec (addressSpace s)
      [.alloc, .map 0xffff900000000000 (blockAddr n) (PTE_BIT_PRESENT ||| PTE_BIT_READ_WRITE)] = .ok (A', [blockAddr n]) ∧
    ∀ va, walk s'.mem s'.cr3.toNat va = A'.translate va := by
  obtain ⟨s₀, s₁, s, h⟩ := startMemory_acpiMap
  obtain ⟨k, hmanaged⟩ := h.managed
  obtain ⟨n, s', -, -, -, -, -, hrun⟩ := h.exists_map
  have hagree := vmmRun_refines hmanaged (permitted_sample _ (blockAddr n) (PTE_BIT_PRESENT ||| PTE_BIT_READ_WRITE))
  rw [hrun] at hagree
  obtain ⟨A', hA, -, hwalk⟩ := hagree.of_ok
  exact ⟨s, n, s', A', h.start, hrun, hA, hwalk⟩

end

end Neobird64
