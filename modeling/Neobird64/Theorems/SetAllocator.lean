import Neobird64.Theorems.Bitmap

/-! Runs of the bitmap allocator against the allocator of a set. In any calls of `pmm_alloc_block` and
    `pmm_free_block` on blocks of the scanned range, the clear bits are the free set of a first-fit
    allocator that makes the same calls, and the addresses that are returned are those of its blocks. -/

namespace Neobird64
open State

/-- A call that a client makes of the allocator. -/
inductive PmmCall
  | alloc
  | free (addr : Word)

namespace PmmCall

/-- What the call returns, nothing for `pmm_free_block`, and the state that it leaves. -/
def exec (s : State) : PmmCall → Option Word × State
  | .alloc => (some (pmmAllocBlock s).1, (pmmAllocBlock s).2)
  | .free addr => (none, pmmFreeBlock s addr)

/-- The call of the allocator of sets. -/
def call : PmmCall → FirstFit.Call Nat
  | .alloc => .alloc
  | .free addr => .release (addr.toNat / 4096)

end PmmCall

/-- The state after the calls. -/
def pmmRun (s : State) (calls : List PmmCall) : State := calls.foldl (fun s c => (c.exec s).2) s

/-- The addresses that `pmm_alloc_block` returns in the calls. -/
def pmmReturns : State → List PmmCall → List Word
  | _, [] => []
  | s, c :: calls => (c.exec s).1.toList ++ pmmReturns (c.exec s).2 calls

/-- The addresses that the allocator of sets returns: 4096 times the least free block, 0 when there is
    none. -/
def setReturns : Finset Nat → List PmmCall → List Nat
  | _, [] => []
  | S, .alloc :: calls => ((FirstFit.alloc S).1.map (4096 * ·)).getD 0 :: setReturns (FirstFit.alloc S).2 calls
  | S, .free addr :: calls => setReturns (FirstFit.release S (addr.toNat / 4096)) calls

/-- In the calls from `s`, the bitmap allocator does what the allocator of sets does, and each call
    changes no bit but that of its block. -/
structure Refines (s : State) (calls : List PmmCall) : Prop where
  returned : (pmmReturns s calls).map BitVec.toNat = setReturns s.clear calls
  clear : (pmmRun s calls).clear = FirstFit.run s.clear (calls.map PmmCall.call)
  others : ∀ before c after, calls = before ++ c :: after → ∀ k < s.scanned,
    c.call.unit (FirstFit.run s.clear (before.map PmmCall.call)) ≠ some k →
      (pmmRun s (before ++ [c])).bit k = (pmmRun s before).bit k
  outside : ∀ a, ¬s.Storage a → (pmmRun s calls).mem a = s.mem a

section
variable {s t : State} {c : PmmCall} {calls : List PmmCall} {a k : Nat}

theorem pmmRun_cons : pmmRun s (c :: calls) = pmmRun (c.exec s).2 calls := rfl

theorem pmmRun_concat : pmmRun s (calls ++ [c]) = (c.exec (pmmRun s calls)).2 := by
  rw [pmmRun, List.foldl_append]
  rfl

/-! ### One call -/

namespace PmmCall

theorem onlyMem : OnlyMem s (c.exec s).2 := by
  cases c with
  | alloc => exact pmmAllocBlock_onlyMem
  | free addr => exact OnlyMem.mmapUnset

section
variable (hs : s.scanned ≤ 2 ^ 31) (hc : ∀ addr, c = .free addr → addr.toNat / 4096 < s.scanned)
include hs hc

/-- A call does to the clear bits what it does to the free set. -/
theorem clear_exec : (c.exec s).2.clear = (c.call.exec s.clear).2 := by
  cases c with
  | alloc => exact (pmmAllocBlock_refines hs).2
  | free addr => exact pmmFreeBlock_refines hs (hc addr rfl)

theorem mem_exec (ha : ¬s.Storage a) : (c.exec s).2.mem a = s.mem a := by
  cases c with
  | alloc =>
    change (pmmAllocBlock s).2.mem a = s.mem a
    cases hl : FirstFit.least s.clear with
    | none => rw [pmmAllocBlock_of_empty (FirstFit.least_eq_none.mp hl)]
    | some n =>
      rw [pmmAllocBlock_of_least hs hl]
      exact mem_mmapSet_of_not_storage (mem_clear.mp (FirstFit.least_eq_some.mp hl).1).1 ha
  | free addr =>
    have hlt := hc addr rfl
    change (pmmFreeBlock s addr).mem a = s.mem a
    rw [pmmFreeBlock_eq (by omega)]
    exact mem_mmapUnset_of_not_storage hlt ha

/-- A scanned bit is the bit of the call's block, or it keeps its value. -/
theorem bit_exec (hk : k < s.scanned) (hne : c.call.unit s.clear ≠ some k) : (c.exec s).2.bit k = s.bit k := by
  have hscan : (c.exec s).2.scanned = s.scanned := onlyMem.scanned
  have hmem := FirstFit.Call.mem_exec hne
  rw [← clear_exec hs hc, mem_clear, mem_clear, hscan] at hmem
  cases hb : s.bit k <;> simp [hk, hb] at hmem <;> exact hmem

end

end PmmCall

/-! ### Runs -/

theorem pmmRun_onlyMem : OnlyMem s (pmmRun s calls) :=
  Loop.foldl_inv (OnlyMem s) (fun _ _ _ h => h.trans PmmCall.onlyMem) (OnlyMem.refl s)

theorem pmmRun_clear (hs : s.scanned ≤ 2 ^ 31) (hfree : ∀ addr, .free addr ∈ calls → addr.toNat / 4096 < s.scanned) :
    (pmmRun s calls).clear = FirstFit.run s.clear (calls.map PmmCall.call) := by
  induction calls generalizing s with
  | nil => rfl
  | cons c calls ih =>
    have hscan : (c.exec s).2.scanned = s.scanned := PmmCall.onlyMem.scanned
    rw [pmmRun_cons, List.map_cons, FirstFit.run_cons,
      ← PmmCall.clear_exec hs fun addr he => hfree addr (by rw [he]; exact List.mem_cons_self),
      ih (by rw [hscan]; exact hs) fun addr h => by rw [hscan]; exact hfree addr (List.mem_cons_of_mem _ h)]

theorem pmmReturns_eq (hs : s.scanned ≤ 2 ^ 31) (hfree : ∀ addr, .free addr ∈ calls → addr.toNat / 4096 < s.scanned) :
    (pmmReturns s calls).map BitVec.toNat = setReturns s.clear calls := by
  induction calls generalizing s with
  | nil => rfl
  | cons c calls ih =>
    have hscan : (c.exec s).2.scanned = s.scanned := PmmCall.onlyMem.scanned
    have hrest := ih (s := (c.exec s).2) (by rw [hscan]; exact hs) fun addr h => by
      rw [hscan]
      exact hfree addr (List.mem_cons_of_mem _ h)
    rw [PmmCall.clear_exec hs fun addr he => hfree addr (by rw [he]; exact List.mem_cons_self)] at hrest
    rw [pmmReturns, List.map_append, hrest]
    cases c with
    | free addr => rfl
    | alloc =>
      have hlt : ∀ n, (FirstFit.alloc s.clear).1 = some n → n < 2 ^ 52 := fun n hn => by
        rw [FirstFit.alloc] at hn
        cases hl : FirstFit.least s.clear with
        | none =>
          rw [hl] at hn
          cases hn
        | some m =>
          rw [hl] at hn
          cases hn
          have := (mem_clear.mp (FirstFit.least_eq_some.mp hl).1).1
          omega
      change [(pmmAllocBlock s).1.toNat] ++ _ = _ :: _
      rw [(pmmAllocBlock_refines hs).1, List.singleton_append]
      cases hn : (FirstFit.alloc s.clear).1 with
      | none => rfl
      | some n =>
        simp only [Option.map_some, Option.getD_some, blockAddr_toNat (hlt n hn), Nat.mul_comm n 4096]
        rfl

/-- Every run of the bitmap allocator is a run of the allocator of sets. -/
theorem pmmRun_refines (hcount : s.pmmBlockCount.toNat ≤ 2 ^ 31)
    (hfree : ∀ addr, .free addr ∈ calls → addr.toNat / 4096 < 8 * (s.pmmBlockCount.toNat / 8)) : Refines s calls := by
  have hs := scanned_of_count hcount
  rw [← scanned_eq] at hfree
  refine ⟨pmmReturns_eq hs hfree, pmmRun_clear hs hfree, fun before c after he k hk hne => ?_, fun a ha => ?_⟩
  · have only : OnlyMem s (pmmRun s before) := pmmRun_onlyMem
    have hsub : ∀ addr, .free addr ∈ before → addr.toNat / 4096 < s.scanned := fun addr h =>
      hfree addr (by rw [he]; exact List.mem_append_left _ h)
    rw [← pmmRun_clear hs hsub] at hne
    rw [pmmRun_concat]
    refine PmmCall.bit_exec (by rw [only.scanned]; exact hs) (fun addr hc => ?_) (by rw [only.scanned]; exact hk) hne
    rw [only.scanned]
    exact hfree addr (by rw [he, hc]; simp)
  · refine (Loop.foldl_inv (fun t => OnlyMem s t ∧ t.mem a = s.mem a) (fun t c hc ⟨only, hmem⟩ => ?_)
      ⟨OnlyMem.refl s, rfl⟩).2
    refine ⟨only.trans PmmCall.onlyMem, ?_⟩
    rw [PmmCall.mem_exec (by rw [only.scanned]; exact hs) (fun addr he => ?_) (by rw [only.storage]; exact ha), hmem]
    rw [only.scanned]
    exact hfree addr (he ▸ hc)

end

/-- Block 1 is freed between two allocations of a bitmap whose only clear bits are 0 and 8. -/
theorem pmmRun_refines_sample : ∃ s : State, s.pmmBlockCount = 16 ∧ s.clear = {0, 8} ∧
    Refines s [.alloc, .free 0x1000, .alloc] := by
  refine ⟨{ mem := fun _ => 0xfe, pmmBlockCount := 16 }, rfl, by decide, pmmRun_refines (by decide) ?_⟩
  simp

end Neobird64
