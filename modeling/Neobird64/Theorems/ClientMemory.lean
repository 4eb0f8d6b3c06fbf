import Neobird64.Theorems.SelfMap
import Neobird64.Lib.Tlb

/-! Virtual memory as clients use it. The processor translates their addresses with the tables, or with what its
    TLB holds of them; `vmm_map_page` and `vmm_free_page` end with a reload of CR3. The memory that clients
    see has neither tables nor a TLB: an address is translated by the address space, and a byte is what was
    last stored to it. -/

namespace Neobird64
open State Paging Transducer

/-- `PTE_BIT_GLOBAL`. -/
def global (e : Entry) : Bool := e.getLsbD 8

inductive MemoryEvent
  | call (c : VmmCall)
  /-- The processor caches the translation of an address. -/
  | fill (va : Word)
  | evict (va : Word)
  | store (va : Word) (x : BitVec 8)
  | load (va : Word)

inductive MemoryExit
  | halt (h : Halt)
  | pageFault
deriving DecidableEq, Repr

/-! ### The processor -/

structure MemoryUnit where
  kernel : State
  tlb : Tlb.Cache Nat Translation

namespace MemoryUnit

def lookup (m : MemoryUnit) (va : Word) : Option Translation :=
  if Low va ∨ High va then (m.tlb (vpn va)).or (walk m.kernel.mem m.kernel.cr3.toNat va) else none

/-- The calls that set an entry end with a reload of CR3, which keeps the global pages in the TLB. -/
def exec (m : MemoryUnit) : MemoryEvent → Except MemoryExit (MemoryUnit × List Word)
  | .call c => ((c.exec m.kernel).mapError .halt).map fun r =>
    (⟨r.1, if c.page.isSome then Tlb.flush (fun tr => global tr.leaf) m.tlb else m.tlb⟩, r.2)
  | .fill va => .ok ({ m with tlb := Function.update m.tlb (vpn va) (walk m.kernel.mem m.kernel.cr3.toNat va) }, [])
  | .evict va => .ok ({ m with tlb := Tlb.evict m.tlb (vpn va) }, [])
  | .store va x =>
    match m.lookup va with
    | some tr =>
      if tr.writable then
        .ok ({ m with kernel := { m.kernel with mem := m.kernel.mem.set (tr.page + va.toNat % 4096) x } }, [])
      else .error .pageFault
    | none => .error .pageFault
  | .load va =>
    match m.lookup va with
    | some tr => .ok (m, [(m.kernel.mem (tr.page + va.toNat % 4096)).setWidth 64])
    | none => .error .pageFault

end MemoryUnit

/-! ### The client memory -/

/-- The address space, and the bytes that were stored in the blocks of clients since they were allocated. -/
structure ClientMemory where
  space : AddressSpace
  contents : Nat → Option (BitVec 8)

namespace AddressSpace

/-- The translation that the entry of a page gives. -/
def translation (A : AddressSpace) (v : Nat) : Option Translation :=
  let e := A.pages v
  if present e then
    some { page := frame e, writable := writable e, user := user e, noExec := noExec e, leaf := e }
  else none

/-- No global page is mapped anew or freed: a reload of CR3 would leave it in the TLB. -/
def SparesGlobal (A : AddressSpace) (c : VmmCall) : Prop :=
  ∀ v tr, c.page = some v → A.translation v = some tr → global tr.leaf = false

end AddressSpace

namespace ClientMemory

def lookup (V : ClientMemory) (va : Word) : Option Translation :=
  if Low va ∨ High va then V.space.translate va else none

/-- A call keeps the bytes of the blocks that are held before and after it. -/
def after (V : ClientMemory) (c : VmmCall) (A : AddressSpace) (a : Nat) : Option (BitVec 8) :=
  match c with
  | .write b x => if a = b then some x else V.contents a
  | _ => if a / 4096 ∈ V.space.held ∧ a / 4096 ∈ A.held then V.contents a else none

def exec (V : ClientMemory) : MemoryEvent → Except MemoryExit (ClientMemory × List Word)
  | .call c => ((V.space.exec c).mapError .halt).map fun r => (⟨r.1, V.after c r.1⟩, r.2)
  | .fill _ | .evict _ => .ok (V, [])
  | .store va x =>
    match V.lookup va with
    | some tr =>
      if tr.writable then .ok ({ V with contents := Function.update V.contents (tr.page + va.toNat % 4096) (some x) }, [])
      else .error .pageFault
    | none => .error .pageFault
  | .load va =>
    match V.lookup va with
    | some tr => .ok (V, [((V.contents (tr.page + va.toNat % 4096)).getD 0).setWidth 64])
    | none => .error .pageFault

/-- Clients leave the pages of the kernel alone, store in their own blocks, and load what they have stored. -/
def Uses (b : Boot) (M : List MemmapEntry) (V : ClientMemory) : MemoryEvent → Prop
  | .call c => V.space.Permits b M c ∧ V.space.SparesGlobal c
  | .fill _ | .evict _ => True
  | .store va _ => ∀ tr, V.lookup va = some tr → (tr.page + va.toNat % 4096) / 4096 ∈ V.space.held
  | .load va => ∀ tr, V.lookup va = some tr → (V.contents (tr.page + va.toNat % 4096)).isSome

end ClientMemory

/-- The processor with its TLB, in a run from `t` after a start from `s₀`, holds the client memory `V`. -/
structure Holds (b : Boot) (M : List MemmapEntry) (s₀ t : State) (m : MemoryUnit) (V : ClientMemory) : Prop where
  sparing : Sparing b M s₀ t m.kernel V.space
  coherent : Tlb.Coherent m.tlb V.space.translation
  contents : ∀ a x, V.contents a = some x → a / 4096 ∈ V.space.held ∧ m.kernel.mem a = x

section
variable {b : Boot} {M : List MemmapEntry} {s₀ t s s' : State} {A A' : AddressSpace} {c : VmmCall} {va : Word} {v a : Nat}
variable {x : BitVec 8} {out : List Word}
variable {m : MemoryUnit} {V : ClientMemory} {e : MemoryEvent}

/-! ### What a call leaves alone -/

/-- The kernel writes to the bitmap and to page tables only. -/
theorem Represents.exec_writes (h : Represents s₀ s A) (hc : A.Owns c) (hexec : c.exec s = .ok (s', out))
    (hw : ∀ b y, c ≠ .write b y) (ha : s'.mem a ≠ s.mem a) :
    s.Storage a ∨ ∃ p t, Table s'.mem s.root p t ∧ t ≤ a ∧ a < t + 4096 := by
  have hs := h.inv.wf.scanned_le
  cases c with
  | alloc =>
    cases hexec
    left
    by_contra hst
    refine ha ?_
    cases hl : FirstFit.least s.clear with
    | none => rw [pmmAllocBlock_of_empty (FirstFit.least_eq_none.mp hl)]
    | some n =>
      rw [pmmAllocBlock_of_least hs hl]
      exact mem_mmapSet_of_not_storage (mem_clear.mp (FirstFit.least_eq_some.mp hl).1).1 hst
  | free addr =>
    cases hexec
    left
    by_contra hst
    refine ha ?_
    have hlt := (h.inv.held_used hc).1
    rw [pmmFreeBlock_eq (by omega)]
    exact mem_mmapUnset_of_not_storage hlt hst
  | map va pa flags =>
    obtain ⟨t, ht, hs'⟩ := Loop.map_eq_ok.mp hexec
    cases hs'
    rw [← tableVirt_root] at ht
    exact (vmmMapPage_extends h.inv.wf ht).changed a ha
  | freePage va =>
    obtain ⟨t, ht, hs'⟩ := Loop.map_eq_ok.mp hexec
    cases hs'
    have hn : frame (leaf s.mem s.root va) / 4096 ∈ A.held := by
      rw [h.block_eq]
      exact hc
    exact h.inv.freePage_writes hn ht ha
  | write b y => exact absurd rfl (hw b y)

/-- Blocks that are held before and after the call keep their bytes. -/
theorem Represents.exec_held (h : Represents s₀ s A) (h' : Represents s₀ s' A') (hroot : s'.root = s.root) (hc : A.Owns c)
    (hexec : c.exec s = .ok (s', out)) (hw : ∀ b y, c ≠ .write b y) (ha : a / 4096 ∈ A.held) (ha' : a / 4096 ∈ A'.held) :
    s'.mem a = s.mem a := by
  by_contra hne
  rcases h.exec_writes hc hexec hw hne with hst | ⟨p, t, ht, hlo, hhi⟩
  · exact h.inv.heldApart _ ha a rfl hst
  · rw [← hroot] at ht
    have hmod := h'.inv.wf.table_mod ht
    exact h'.inv.held_not_table ha' ht (by omega)

/-- A call for one page keeps the entries of the others. -/
theorem AddressSpace.exec_translation (hc : A.SparesGlobal c) (hexec : A.exec c = .ok (A', out)) {tr : Translation}
    (htr : A.translation v = some tr) (hglobal : global tr.leaf = true) : A'.translation v = some tr := by
  have hpage : c.page ≠ some v := fun hv => by
    rw [hc v tr hv htr] at hglobal
    cases hglobal
  rwa [translation, exec_pages hpage hexec]

/-- What is still known of the contents after a call is in memory. -/
theorem Holds.after (h : Holds b M s₀ t m V) (hc : V.space.Owns c) (hexec : c.exec m.kernel = .ok (s', out))
    (hA : V.space.exec c = .ok (A', out)) (h' : Represents s₀ s' A') (ha : V.after c A' a = some x) :
    a / 4096 ∈ A'.held ∧ s'.mem a = x := by
  by_cases hw : ∃ b y, c = .write b y
  · obtain ⟨b, y, rfl⟩ := hw
    cases hexec
    cases hA
    simp only [ClientMemory.after] at ha
    split at ha
    · rename_i hab
      cases ha
      subst hab
      exact ⟨hc, Memory.set_same _ _ _⟩
    · rename_i hab
      obtain ⟨hheld, hmem⟩ := h.contents a x ha
      exact ⟨hheld, (Memory.set_of_ne _ _ hab).trans hmem⟩
  · have hw' : ∀ b y, c ≠ .write b y := fun b y hby => hw ⟨b, y, hby⟩
    have hafter : V.after c A' a = if a / 4096 ∈ V.space.held ∧ a / 4096 ∈ A'.held then V.contents a else none := by
      cases c with
      | write b y => exact absurd rfl (hw' b y)
      | _ => rfl
    rw [hafter] at ha
    split at ha
    · rename_i hheld
      refine ⟨hheld.2, ?_⟩
      rw [h.sparing.represents.exec_held h' (VmmCall.exec_onlyMem hexec).root hc hexec hw' hheld.1 hheld.2]
      exact (h.contents a x ha).2
    · cases ha

/-! ### One event -/

namespace Holds
variable (h : Holds b M s₀ t m V)
include h

theorem lookup_eq (va : Word) : m.lookup va = V.lookup va := by
  rw [MemoryUnit.lookup, ClientMemory.lookup, h.sparing.represents.walk_eq]
  split
  · exact h.coherent.lookup_eq
  · rfl

theorem call (hc : V.Uses b M (.call c)) : Agree (Holds b M s₀ t) (m.exec (.call c)) (V.exec (.call c)) := by
  have hagree := h.sparing.step hc.1
  rw [MemoryUnit.exec, ClientMemory.exec]
  cases hs : c.exec m.kernel with
  | error e =>
    cases hA : V.space.exec c with
    | error e' =>
      rw [hs, hA] at hagree
      cases hagree
      exact .error
    | ok r' =>
      rw [hs, hA] at hagree
      cases hagree
  | ok r =>
    obtain ⟨s', out⟩ := r
    obtain ⟨A', hA, hsparing⟩ := (hs ▸ hagree).of_ok
    rw [hA]
    refine .ok ⟨hsparing, ?_, fun a x ha => h.after hc.1.1 hs hA hsparing.represents ha⟩
    simp only
    split
    · exact h.coherent.flush fun v tr htr hglobal => AddressSpace.exec_translation hc.2 hA htr hglobal
    · rename_i hpage
      intro v tr htr
      have hne : c.page ≠ some v := fun hv => hpage (by rw [hv]; rfl)
      rw [AddressSpace.translation, AddressSpace.exec_pages hne hA]
      exact h.coherent v tr htr

theorem fill : Agree (Holds b M s₀ t) (m.exec (.fill va)) (V.exec (.fill va)) := by
  refine .ok ⟨h.sparing, ?_, h.contents⟩
  rw [h.sparing.represents.walk_eq]
  exact h.coherent.fill (vpn va)

theorem evict : Agree (Holds b M s₀ t) (m.exec (.evict va)) (V.exec (.evict va)) :=
  .ok ⟨h.sparing, h.coherent.evict (vpn va), h.contents⟩

theorem load (hc : V.Uses b M (.load va)) : Agree (Holds b M s₀ t) (m.exec (.load va)) (V.exec (.load va)) := by
  rw [MemoryUnit.exec, ClientMemory.exec, h.lookup_eq]
  cases hl : V.lookup va with
  | none => exact .error
  | some tr =>
    obtain ⟨x, hx⟩ := Option.isSome_iff_exists.mp (hc tr hl)
    simp only [hx, (h.contents _ x hx).2, Option.getD_some]
    exact .ok h

theorem store (hc : V.Uses b M (.store va x)) : Agree (Holds b M s₀ t) (m.exec (.store va x)) (V.exec (.store va x)) := by
  rw [MemoryUnit.exec, ClientMemory.exec, h.lookup_eq]
  cases hl : V.lookup va with
  | none => exact .error
  | some tr =>
    have hheld := hc tr hl
    simp only
    split
    · have hpermits : V.space.Permits b M (.write (tr.page + va.toNat % 4096) x) := ⟨hheld, trivial⟩
      obtain ⟨A', hA, hsparing⟩ := (h.sparing.step hpermits).of_ok
      cases hA
      refine .ok ⟨hsparing, h.coherent, fun a y ha => ?_⟩
      by_cases hab : a = tr.page + va.toNat % 4096
      · subst hab
        have hxy : Function.update V.contents (tr.page + va.toNat % 4096) (some x) (tr.page + va.toNat % 4096) = some y := ha
        rw [Function.update_self, Option.some.injEq] at hxy
        exact ⟨hheld, hxy ▸ Memory.set_same _ _ _⟩
      · obtain ⟨hheld', hmem⟩ := h.contents a y ((Function.update_of_ne hab _ _).symm.trans ha)
        exact ⟨hheld', (Memory.set_of_ne _ _ hab).trans hmem⟩
    · exact .error

/-- Each event does on the processor what it does on the client memory. -/
theorem step (hc : V.Uses b M e) : Agree (Holds b M s₀ t) (m.exec e) (V.exec e) := by
  cases e with
  | call c => exact h.call hc
  | fill va => exact h.fill
  | evict va => exact h.evict
  | store va x => exact h.store hc
  | load va => exact h.load hc

end Holds

end

/-! ### From `vmm_init` on -/

section
variable {b : Boot} {d : Devices} {M : List MemmapEntry} {k : KernelAddress} {mem : Memory} {s : State} {events : List MemoryEvent}

/-- In every run after `vmm_init`, whatever the TLB caches and when, clients load what they stored last, get the addresses
    that the address space gives them, and meet a page fault or a panic exactly where the client memory has one. The
    kernel's own pointers lead where they should, with the TLB as without it. -/
theorem clientMemory_refines (h : Managed b d M k mem s)
    (huses : Allowed ClientMemory.exec (ClientMemory.Uses b M) ⟨addressSpace s, fun _ => none⟩ events) :
    Agree (fun m V => SelfMapped m.kernel ∧ (∀ va, m.lookup va = V.lookup va) ∧ ∀ a x, V.contents a = some x → m.kernel.mem a = x)
      (run MemoryUnit.exec ⟨s, fun _ => none⟩ events) (run ClientMemory.exec ⟨addressSpace s, fun _ => none⟩ events) := by
  obtain ⟨s₀, ready, hs⟩ := h.sparing
  have hholds : Holds b M s₀ s ⟨s, fun _ => none⟩ ⟨addressSpace s, fun _ => none⟩ :=
    ⟨hs, Tlb.coherent_empty, fun _ _ h => absurd h.symm (Option.some_ne_none _)⟩
  exact (run_agree (fun _ _ _ ht hc => ht.step hc) hholds huses).imp
    fun _ _ _ _ _ ht => ⟨h.selfMapped ready hs ht.sparing, ht.lookup_eq, fun a x ha => (ht.contents a x ha).2⟩

end

/-- A client takes a block, stores in it through the HHDM and loads the byte back. -/
theorem clientMemory_refines_sample : ∃ s n p, startMemory (sampleBoot acpiMap) acpiDevices acpiMemory = .ok s ∧
    p = BitVec.ofNat 64 ((sampleBoot acpiMap).hhdm.toNat + n * 4096) ∧
    ∃ m, run MemoryUnit.exec ⟨s, fun _ => none⟩ [.call .alloc, .store p 7, .load p] = .ok (m, [blockAddr n, 7]) := by
  obtain ⟨s₀, s₁, s, h⟩ := startMemory_acpiMap
  obtain ⟨kernel, hB, hspans, -⟩ := h.booted
  obtain ⟨t, ready, hrep⟩ := startMemory_represents acpiMap_like.ok rfl (by decide) h.start
  obtain ⟨n, hleast⟩ : ∃ n, FirstFit.least s.clear = some n := by
    have hblocks := h.blocks
    cases hl : FirstFit.least s.clear with
    | some n => exact ⟨n, rfl⟩
    | none =>
      rw [FirstFit.least_eq_none.mp hl, Finset.card_empty] at hblocks
      omega
  have hn := (FirstFit.least_eq_some.mp hleast).1
  have husable := hrep.inv.usable_of_not_init ready (mem_clear.mp hn).1 (hrep.inv.clear_cases hn).1
  obtain ⟨p, hp⟩ : ∃ p, p = BitVec.ofNat 64 ((sampleBoot acpiMap).hhdm.toNat + n * 4096) := ⟨_, rfl⟩
  -- The HHDM leads to the block.
  have hreach : Reaches s p (n * 4096) :=
    hp ▸ (acpiMap_windows.layout hspans).reaches_usable hB entriesOk_acpiMap (by rwa [Nat.mul_div_cancel _ (by decide)])
  obtain ⟨tr, hlookup, hpage, hwrite⟩ : ∃ tr, (if Low p ∨ High p then (addressSpace s).translate p else none) = some tr ∧
      tr.page + p.toNat % 4096 = n * 4096 ∧ tr.writable = true := by
    obtain ⟨htranslate, hwritable⟩ := hreach
    rw [Paging.translate] at htranslate
    split at htranslate
    · rename_i hhalf
      obtain ⟨tr, hwalk, hpage⟩ := Option.map_eq_some_iff.mp htranslate
      exact ⟨tr, by rw [if_pos hhalf, ← hrep.walk_eq, hwalk], hpage, hwritable tr hwalk⟩
    · cases htranslate
  obtain ⟨V, halloc, hheld, hspace⟩ : ∃ V : ClientMemory, ClientMemory.exec ⟨addressSpace s, fun _ => none⟩ (.call .alloc) =
      .ok (V, [blockAddr n]) ∧ n ∈ V.space.held ∧ V.lookup p = some tr := by
    have hclear : FirstFit.least (addressSpace s).stock.free = some n := hleast
    rw [ClientMemory.exec, AddressSpace.exec, hclear]
    exact ⟨_, rfl, Finset.mem_insert_self n ∅, hlookup⟩
  have hstore : V.exec (.store p 7) = .ok ({ V with contents := Function.update V.contents (n * 4096) (some 7) }, []) := by
    rw [ClientMemory.exec, hspace]
    simp only [hwrite, if_true, hpage]
  have hload : ClientMemory.exec { V with contents := Function.update V.contents (n * 4096) (some 7) } (.load p) =
      .ok ({ V with contents := Function.update V.contents (n * 4096) (some 7) }, [7]) := by
    have hsame : ClientMemory.lookup { V with contents := Function.update V.contents (n * 4096) (some 7) } p = some tr := hspace
    rw [ClientMemory.exec, hsame]
    simp only [hpage, Function.update_self]
    rfl
  have huses : Allowed ClientMemory.exec (ClientMemory.Uses (sampleBoot acpiMap) acpiMap) ⟨addressSpace s, fun _ => none⟩
      [.call .alloc, .store p 7, .load p] := by
    refine ⟨⟨⟨trivial, trivial⟩, fun _ _ hpage => absurd hpage.symm (Option.some_ne_none _)⟩, fun r hr => ?_⟩
    rw [halloc] at hr
    cases hr
    refine ⟨fun tr' htr => ?_, fun r hr => ?_⟩
    · rw [hspace] at htr
      cases htr
      rw [hpage, Nat.mul_div_cancel _ (by decide)]
      exact hheld
    · rw [hstore] at hr
      cases hr
      refine ⟨fun tr' htr => ?_, fun _ _ => trivial⟩
      have htr' : V.lookup p = some tr' := htr
      rw [hspace] at htr'
      cases htr'
      simp only [hpage, Function.update_self, Option.isSome_some]
  obtain ⟨k, hmanaged⟩ := h.managed
  have hagree := clientMemory_refines hmanaged huses
  rw [run_cons_of_ok (l := [.store p 7, .load p]) halloc, run_cons_of_ok (l := [.load p]) hstore, run_singleton, hload] at hagree
  generalize hr : run MemoryUnit.exec ⟨s, fun _ => none⟩ [.call .alloc, .store p 7, .load p] = r at hagree
  cases hagree with
  | ok => exact ⟨s, n, p, h.start, hp, _, hr⟩

end Neobird64
