import Neobird64.Theorems.TableBuild
import Neobird64.Theorems.FreePage
import Neobird64.Lib.Transducer

/-! What the memory manager is for, and that it does it. An address space is a stock of blocks from which page
    tables are built on demand, and a map from pages to entries; no memory is in it. At every call of the
    clients the kernel returns what the address space returns, translates what it translates, and panics
    exactly when it runs out of blocks. -/

namespace Neobird64
open State Paging PathTree OnDemand

/-- A call of a client, or its write to a byte. -/
inductive VmmCall
  | alloc
  | free (addr : Word)
  | map (va pa flags : Word)
  | freePage (va : Word)
  | write (a : Nat) (b : BitVec 8)

/-- The state after the call, and the address that is returned. -/
def VmmCall.exec (s : State) : VmmCall → Except Halt (State × List Word)
  | .alloc => .ok ((pmmAllocBlock s).2, [(pmmAllocBlock s).1])
  | .free addr => .ok (pmmFreeBlock s addr, [])
  | .map va pa flags => (vmmMapPage s s.kernelPageMap va pa flags).map fun s => (s, [])
  | .freePage va => (vmmFreePage s s.kernelPageMap va).map fun s => (s, [])
  | .write a b => .ok ({ s with mem := s.mem.set a b }, [])

/-- The page whose entry the call sets. -/
def VmmCall.page : VmmCall → Option Nat
  | .map va _ _ => some (vpn va)
  | .freePage va => some (vpn va)
  | _ => none

/-- The free blocks and the paths of the page tables, the entry of each page, and the blocks of the clients. -/
structure AddressSpace where
  stock : Stock Nat (List (Fin 512))
  pages : Nat → Word
  held : Finset Nat

namespace AddressSpace

/-- The request for the page tables of `va`. -/
def request (A : AddressSpace) (va : Word) : Except Halt (Stock Nat (List (Fin 512))) :=
  match buildAll A.stock (tablePaths va) with
  | some st => .ok st
  | none => .error noTableBlock

/-- The block that the entry of `va` names. -/
def block (A : AddressSpace) (va : Word) : Nat := frame (A.pages (vpn va)) / 4096

def exec (A : AddressSpace) : VmmCall → Except Halt (AddressSpace × List Word)
  | .alloc =>
    match FirstFit.least A.stock.free with
    | some n => .ok ({ A with stock := ⟨A.stock.free.erase n, A.stock.built⟩, held := insert n A.held }, [blockAddr n])
    | none => .ok (A, [0])
  | .free addr =>
    let n := addr.toNat / 4096
    .ok ({ A with stock := ⟨insert n A.stock.free, A.stock.built⟩, held := A.held.erase n }, [])
  | .map va pa flags =>
    (A.request va).map fun st => ({ A with stock := st, pages := Function.update A.pages (vpn va) (pa ||| flags) }, [])
  | .freePage va =>
    (A.request va).map fun st => ({
      stock := ⟨insert (A.block va) st.free, st.built⟩
      pages := Function.update A.pages (vpn va) 0
      held := A.held.erase (A.block va) }, [])
  | .write _ _ => .ok (A, [])

/-- Clients free and write their own blocks only. -/
def Owns (A : AddressSpace) : VmmCall → Prop
  | .free addr => addr.toNat / 4096 ∈ A.held
  | .freePage va => A.block va ∈ A.held
  | .write a _ => a / 4096 ∈ A.held
  | _ => True

/-- The translation that the entry of `va` gives. -/
def translate (A : AddressSpace) (va : Word) : Option Translation :=
  let e := A.pages (vpn va)
  if present e then
    some { page := frame e, writable := writable e, user := user e, noExec := noExec e, leaf := e }
  else none

end AddressSpace

/-- The machine `s`, in a run from `s₀`, holds the address space `A`. -/
structure Represents (s₀ s : State) (A : AddressSpace) : Prop where
  inv : FrameInv s₀ s A.held
  loaded : s.cr3.toNat = s.root
  zero : 0 ∉ s₀.clear
  hhdm : HhdmOk s
  clear : s.clear = A.stock.free
  tables : TablesAt s s.root A.stock.built
  pages : ∀ va, leaf s.mem s.root va = A.pages (vpn va)

theorem OnlyMem.loaded {s s' : State} (h : OnlyMem s s') (hs : s.cr3.toNat = s.root) : s'.cr3.toNat = s'.root := by
  rw [h.root, h.cr3, hs]

section
variable {s₀ s s' : State} {A A' : AddressSpace} {c : VmmCall} {n a v : Nat} {va pa flags addr : Word} {x : BitVec 8}
variable {out : List Word}

/-- A call for another page keeps the entry of this one. -/
theorem AddressSpace.exec_pages (hv : c.page ≠ some v) (h : A.exec c = .ok (A', out)) : A'.pages v = A.pages v := by
  cases c with
  | alloc =>
    simp only [exec] at h
    split at h <;> cases h <;> rfl
  | free addr =>
    cases h
    rfl
  | map va pa flags =>
    obtain ⟨st, -, hA⟩ := Loop.map_eq_ok.mp h
    cases hA
    exact Function.update_of_ne (fun hv' : v = vpn va => hv (congrArg some hv'.symm)) _ _
  | freePage va =>
    obtain ⟨st, -, hA⟩ := Loop.map_eq_ok.mp h
    cases hA
    exact Function.update_of_ne (fun hv' : v = vpn va => hv (congrArg some hv'.symm)) _ _
  | write a x =>
    cases h
    rfl

theorem VmmCall.exec_onlyMem (h : c.exec s = .ok (s', out)) : OnlyMem s s' := by
  cases c with
  | alloc =>
    cases h
    exact pmmAllocBlock_onlyMem
  | free addr =>
    cases h
    exact OnlyMem.mmapUnset
  | map va pa flags =>
    obtain ⟨t, ht, hs⟩ := Loop.map_eq_ok.mp h
    cases hs
    exact vmmMapPage_onlyMem ht
  | freePage va =>
    obtain ⟨t, ht, hs⟩ := Loop.map_eq_ok.mp h
    cases hs
    exact vmmFreePage_onlyMem ht
  | write a x =>
    cases h
    exact (rfl : OnlyMem s { s with mem := s.mem.set a x })

namespace Represents
variable (h : Represents s₀ s A)
include h

/-- The processor translates as the address space says. -/
theorem walk_eq (va : Word) : walk s.mem s.cr3.toNat va = A.translate va := by
  rw [h.loaded, h.inv.wf.tree.walk, h.pages]
  rfl

theorem stock_eq : A.stock = ⟨s.clear, A.stock.built⟩ := by
  rw [h.clear]

theorem zero_not_clear : 0 ∉ s.clear := h.inv.clear_ne_zero h.zero

theorem block_eq : frame (leaf s.mem s.root va) / 4096 = A.block va := by
  rw [h.pages, AddressSpace.block]

/-- A change outside of the tables leaves them and all entries as they are. -/
theorem congr {A' : AddressSpace} (only : OnlyMem s s')
    (hm : ∀ p t a, Table s.mem s.root p t → t ≤ a → a < t + 4096 → s'.mem a = s.mem a) (hinv : FrameInv s₀ s' A'.held)
    (hclear : s'.clear = A'.stock.free) (hbuilt : A'.stock.built = A.stock.built) (hpages : A'.pages = A.pages) :
    Represents s₀ s' A' where
  inv := hinv
  loaded := only.loaded h.loaded
  zero := h.zero
  hhdm := only.hhdmOk h.hhdm
  clear := hclear
  tables := by
    rw [only.root, hbuilt]
    exact h.tables.congr fun _ _ => table_iff_of_tables hm
  pages va := by
    rw [only.root, hpages, leaf_eq_of_tables hm, h.pages]

/-! ### One call -/

theorem alloc : Transducer.Agree (Represents s₀) (VmmCall.alloc.exec s) (A.exec .alloc) := by
  have hs := h.inv.wf.scanned_le
  rw [VmmCall.exec, AddressSpace.exec, ← h.clear]
  cases hl : FirstFit.least s.clear with
  | none =>
    rw [pmmAllocBlock_of_empty (FirstFit.least_eq_none.mp hl)]
    exact .ok h
  | some n =>
    have hn := (FirstFit.least_eq_some.mp hl).1
    have hlt := (mem_clear.mp hn).1
    rw [pmmAllocBlock_of_least hs hl]
    exact .ok (h.congr OnlyMem.mmapSet (h.inv.wf.tables_mmapSet hlt) (h.inv.alloc hn)
      (clear_mmapSet hs (by omega)) rfl rfl)

theorem free (hn : addr.toNat / 4096 ∈ A.held) :
    Transducer.Agree (Represents s₀) ((VmmCall.free addr).exec s) (A.exec (.free addr)) := by
  have hs := h.inv.wf.scanned_le
  have hlt := (h.inv.held_used hn).1
  rw [VmmCall.exec, AddressSpace.exec, ← h.clear, pmmFreeBlock_eq (by omega)]
  exact .ok (h.congr OnlyMem.mmapUnset (h.inv.wf.tables_mmapUnset hlt) (h.inv.free hn) (clear_mmapUnset hs hlt) rfl rfl)

theorem map : Transducer.Agree (Represents s₀) ((VmmCall.map va pa flags).exec s) (A.exec (.map va pa flags)) := by
  have hbuild := vmmMapPage_build h.inv.wf h.hhdm h.zero_not_clear h.tables va pa flags
  rw [← h.stock_eq] at hbuild
  rw [VmmCall.exec, AddressSpace.exec, AddressSpace.request, ← tableVirt_root]
  rcases hbuild with ⟨st, s', hst, hmap, hclear, htables⟩ | ⟨hst, hmap⟩
  · have ext := vmmMapPage_extends h.inv.wf hmap
    rw [hst, hmap]
    rw [← ext.only.root] at htables
    refine .ok ⟨h.inv.extend ext, ext.only.loaded h.loaded, h.zero, ext.only.hhdmOk h.hhdm, hclear, htables, fun va' => ?_⟩
    simp only [ext.only.root, vmmMapPage_leaf h.inv.wf hmap, h.pages, Function.update_apply]
  · rw [hst, hmap]
    exact .error

theorem freePage (hn : A.block va ∈ A.held) :
    Transducer.Agree (Represents s₀) ((VmmCall.freePage va).exec s) (A.exec (.freePage va)) := by
  have hn' : frame (leaf s.mem s.root va) / 4096 ∈ A.held := by rwa [h.block_eq]
  have hbuild := vmmFreePage_build h.inv.wf h.hhdm h.zero_not_clear h.tables (h.inv.dataBlock hn') rfl
  rw [← h.stock_eq, h.block_eq] at hbuild
  rw [VmmCall.exec, AddressSpace.exec, AddressSpace.request, ← tableVirt_root]
  rcases hbuild with ⟨st, s', hst, hfree, hclear, htables, hleaf⟩ | ⟨hst, hfree⟩
  · rw [hst, hfree]
    rw [tableVirt_root] at hfree
    obtain ⟨s₁, s₂, ext, hs₂, hinv, ext₂, -⟩ := h.inv.freePage_eq hn' hfree
    have only₂ : OnlyMem s s₂ := by
      rw [hs₂]
      exact ext.only.trans OnlyMem.mmapUnset
    have only : OnlyMem s s' := only₂.trans ext₂.only
    rw [← only₂.root] at ext₂
    rw [h.block_eq] at hinv
    refine .ok ⟨hinv.extend ext₂, only.loaded h.loaded, h.zero, only.hhdmOk h.hhdm, hclear, ?_, fun va' => ?_⟩
    · rw [only.root]
      exact htables
    · simp only [only.root, hleaf, h.pages, Function.update_apply]
  · rw [hst, hfree]
    exact .error

theorem write (ha : a / 4096 ∈ A.held) :
    Transducer.Agree (Represents s₀) ((VmmCall.write a x).exec s) (A.exec (.write a x)) := by
  have only : OnlyMem s { s with mem := s.mem.set a x } := rfl
  have hout : ∀ b, (s.Storage b ∨ ∃ p t, Table s.mem s.root p t ∧ t ≤ b ∧ b < t + 4096) → s.mem.set a x b = s.mem b := by
    intro b hb
    refine Memory.set_of_ne _ _ ?_
    rintro rfl
    rcases hb with hb | ⟨p, t, ht, hlo, hhi⟩
    · exact h.inv.heldApart _ ha b rfl hb
    · have hmod := h.inv.wf.table_mod ht
      exact h.inv.held_not_table ha ht (by omega)
  refine .ok (h.congr only (fun p t b ht hlo hhi => hout b (Or.inr ⟨p, t, ht, hlo, hhi⟩)) (h.inv.write ha) ?_ rfl rfl)
  rw [only.clear fun b hb => hout b (Or.inl hb), h.clear]

/-- Each call that clients may make does on the machine what it does on the address space. -/
theorem step (hc : A.Owns c) : Transducer.Agree (Represents s₀) (c.exec s) (A.exec c) := by
  cases c with
  | alloc => exact h.alloc
  | free addr => exact h.free hc
  | map va pa flags => exact h.map
  | freePage va => exact h.freePage hc
  | write a x => exact h.write hc

end Represents

end

/-! ### From `vmm_init` on -/

section
variable {b : Boot} {d : Devices} {M : List MemmapEntry} {mem : Memory} {s : State}

/-- The address space in the kernel's tables, when no client holds a block. -/
noncomputable def addressSpace (s : State) : AddressSpace where
  stock := ⟨s.clear, (finite_tables s.mem s.root).toFinset⟩
  pages v := leaf s.mem s.root (BitVec.ofNat 64 (v * 4096))
  held := ∅

/-- `vmm_init` has the direct map where the bootloader says, and loads the kernel's tables. -/
theorem startMemory_hhdm (h : startMemory b d mem = .ok s) :
    s.hhdmoffset = b.hhdm ∧ b.hhdm ≠ 0 ∧ s.cr3.toNat = s.root := by
  obtain ⟨s₀, -, h⟩ := Loop.bind_eq_ok.mp h
  obtain ⟨s₁, -, h⟩ := Loop.bind_eq_ok.mp h
  have h0 : b.hhdm ≠ 0 := by
    intro h0
    simp only [vmmInit, if_pos h0] at h
    cases h
  obtain ⟨t, ht, rfl⟩ := vmmInit_inv (fun t => t.hhdmoffset = b.hhdm) (fun t ht => (newPageMap_onlyMem ht).hhdmoffset)
    (fun t va pa flags t' ht hmap => (vmmMapPage_onlyMem hmap).hhdmoffset.trans ht) h
  exact ⟨ht, h0, rfl⟩

/-- `vmm_init` leaves the tables of an address space. -/
theorem startMemory_represents (hM : UsableOk M) (hb : b.memmap = some M) (hwindow : b.hhdm.toNat + 2 ^ 43 ≤ 2 ^ 64)
    (h : startMemory b d mem = .ok s) : ∃ s₀, PmmReady M s₀ ∧ Represents s₀ s (addressSpace s) := by
  obtain ⟨s₀, ready, h0, inv⟩ := startMemory_frameInv hM hb h
  obtain ⟨hoff, hne, hcr3⟩ := startMemory_hhdm h
  have hpos : 0 < b.hhdm.toNat := Nat.pos_of_ne_zero fun h => hne (BitVec.eq_of_toNat_eq h)
  have hh : HhdmOk s := by
    rw [HhdmOk, hoff]
    exact ⟨hpos, hwindow⟩
  refine ⟨s₀, ready, ?_⟩
  constructor
  case inv => exact inv
  case loaded => exact hcr3
  case zero => exact h0
  case hhdm => exact hh
  case clear => rfl
  case tables => exact fun _ => (finite_tables s.mem s.root).mem_toFinset
  case pages => exact leaf_eq_vpn

end

end Neobird64
