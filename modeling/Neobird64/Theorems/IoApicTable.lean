import Neobird64.Theorems.IoApic
import Neobird64.Lib.LastWrite
import Neobird64.Lib.Transducer

/-! Any calls of `ioapic_read` and `ioapic_configure_entry`, on the registers behind the two windows and on a table of
    64-bit entries. The table has no selected register; a number outside it is taken modulo 128. -/

namespace Neobird64
open Transducer

inductive IoApicCall
  | read (reg : BitVec 8)
  | configureEntry (reg : BitVec 8) (val : Word)
deriving DecidableEq, Repr

/-- A call, with what it returns. -/
def ioapicCall (io : IoApic) : IoApicCall → Except Halt (IoApic × List (BitVec 32))
  | .read reg => .ok ((ioapicRead io reg).2, [(ioapicRead io reg).1])
  | .configureEntry reg val => .ok (io.run (ioapicConfigureEntry reg val), [])

/-- The redirection entries of an I/O APIC, as 64-bit values. -/
structure RedirectionTable where
  version : BitVec 32
  entry : Nat → Word

namespace RedirectionTable

def highest (t : RedirectionTable) : Nat := highestEntry t.version

/-- The register of the version, or half of an entry that the table has. -/
def Has (t : RedirectionTable) (reg : BitVec 8) : Prop :=
  reg = IOAPICVER_REG ∨ 16 ≤ reg.toNat ∧ (reg.toNat - 16) / 2 ≤ t.highest

def read (t : RedirectionTable) (reg : BitVec 8) : BitVec 32 :=
  if reg = IOAPICVER_REG then t.version
  else (t.entry ((reg.toNat - 16) / 2)).extractLsb' (32 * (reg.toNat % 2)) 32

def call (t : RedirectionTable) : IoApicCall → Except Halt (RedirectionTable × List (BitVec 32))
  | .read reg => .ok (t, [t.read reg])
  | .configureEntry reg val => .ok ({ t with entry := Function.update t.entry (reg.toNat % 128) val }, [])

/-- The calls that read registers of the table. -/
def Reads (t : RedirectionTable) : IoApicCall → Prop
  | .read reg => t.Has reg
  | .configureEntry _ _ => True

end RedirectionTable

/-- A redirection entry, from its two registers. -/
def IoApic.entry (io : IoApic) (n : Nat) : Word := io.entryHigh n ++ io.entryLow n

def IoApic.table (io : IoApic) : RedirectionTable := ⟨io.version, io.entry⟩

/-- The I/O APIC and the table have the same version, and the same entries up to the highest one. -/
structure HasTable (io : IoApic) (t : RedirectionTable) : Prop where
  version : io.version = t.version
  entry : ∀ n ≤ t.highest, io.entry n = t.entry n

/-- What the calls write to the table. -/
def entryWrites (cs : List IoApicCall) : List (Nat × Word) :=
  cs.filterMap fun
    | .read _ => none
    | .configureEntry reg val => some (reg.toNat % 128, val)

section
variable {io : IoApic} {t : RedirectionTable} {reg r : BitVec 8} {val : Word} {c : IoApicCall} {cs : List IoApicCall} {e n : Nat}

/-! ### The registers of an entry -/

theorem append_eq_of_halves : (val >>> 32).setWidth 32 ++ val.setWidth 32 = val := by
  apply BitVec.eq_of_getLsbD_eq
  intro i hi
  simp only [BitVec.getLsbD_append, BitVec.getLsbD_setWidth, BitVec.getLsbD_ushiftRight]
  grind

theorem entry_configureEntry (he : e ≤ 119) : (io.run (ioapicConfigureEntry reg val)).entry e =
    if reg.toNat % 128 = e then val else io.entry e := by
  rw [IoApic.entry, entryHigh_configureEntry he, entryLow_configureEntry he]
  split
  · exact append_eq_of_halves
  · rfl

theorem HasTable.highest_le (h : HasTable io t) : t.highest ≤ 119 := by
  rw [RedirectionTable.highest, ← h.version]
  exact io.fits

/-! ### One call -/

/-- A read of the table is a load of the selected register, whatever was selected before. -/
theorem HasTable.read (h : HasTable io t) (hr : t.Has r) : (ioapicRead io r).1 = t.read r := by
  have hload : (ioapicRead io r).1 = io.file.regs r := rfl
  rw [hload, RedirectionTable.read]
  rcases hr with rfl | ⟨h16, hle⟩
  · rw [if_pos rfl]
    exact h.version
  have hne : r ≠ IOAPICVER_REG := fun heq => by
    have h1 : IOAPICVER_REG.toNat = 1 := rfl
    rw [heq, h1] at h16
    omega
  rw [if_neg hne, ← h.entry _ hle, IoApic.entry]
  rcases Nat.mod_two_eq_zero_or_one r.toNat with hmod | hmod
  · rw [hmod, Nat.mul_zero, BitVec.extractLsb'_append_eq_right, IoApic.entryLow]
    congr 1
    apply BitVec.eq_of_toNat_eq
    rw [BitVec.toNat_ofNat]
    omega
  · rw [hmod, Nat.mul_one, BitVec.extractLsb'_append_eq_left, IoApic.entryHigh]
    congr 1
    apply BitVec.eq_of_toNat_eq
    rw [BitVec.toNat_ofNat]
    omega

theorem HasTable.selected (h : HasTable io t) : HasTable (ioapicRead io r).2 t := ⟨h.version, h.entry⟩

theorem HasTable.configureEntry (h : HasTable io t) : HasTable (io.run (ioapicConfigureEntry reg val))
    { t with entry := Function.update t.entry (reg.toNat % 128) val } where
  version := IoApic.version_run.trans h.version
  entry n hn := by
    have hle := h.highest_le
    have hn' : n ≤ t.highest := hn
    rw [entry_configureEntry (by omega), h.entry n hn']
    exact (if_congr eq_comm rfl rfl).trans (Function.update_apply t.entry _ val n).symm

/-- A call on the I/O APIC is the same call on the table. -/
theorem HasTable.call (h : HasTable io t) (hc : t.Reads c) : Agree HasTable (ioapicCall io c) (t.call c) := by
  cases c with
  | read reg =>
    rw [ioapicCall, RedirectionTable.call, h.read hc]
    exact .ok h.selected
  | configureEntry reg val => exact .ok h.configureEntry

/-! ### Any calls -/

theorem highest_of_call {u : RedirectionTable × List (BitVec 32)} (h : t.call c = .ok u) : u.1.version = t.version := by
  cases c <;> cases h <;> rfl

theorem allowed_of_reads (h : ∀ c ∈ cs, t.Reads c) : Allowed RedirectionTable.call RedirectionTable.Reads t cs := by
  induction cs generalizing t with
  | nil => trivial
  | cons c cs ih =>
    refine ⟨h c List.mem_cons_self, fun u hu => ih fun c' hc' => ?_⟩
    have hreads := h c' (List.mem_cons_of_mem _ hc')
    cases c' with
    | configureEntry reg val => trivial
    | read reg =>
      rw [RedirectionTable.Reads, RedirectionTable.Has, RedirectionTable.highest] at hreads ⊢
      rw [highest_of_call hu]
      exact hreads

theorem run_call : ∃ out, run RedirectionTable.call t cs =
    .ok (⟨t.version, LastWrite.apply (entryWrites cs) t.entry⟩, out) := by
  induction cs generalizing t with
  | nil => exact ⟨[], rfl⟩
  | cons c cs ih =>
    cases c with
    | read reg =>
      obtain ⟨out, hout⟩ := ih (t := t)
      exact ⟨[t.read reg] ++ out, by rw [run_cons_of_ok rfl, hout]; rfl⟩
    | configureEntry reg val =>
      obtain ⟨out, hout⟩ := ih (t := { t with entry := Function.update t.entry (reg.toNat % 128) val })
      exact ⟨out, by rw [run_cons_of_silent rfl, hout]; rfl⟩

end

/-- Calls on an I/O APIC return what they return on its table, and leave in each entry the last value written to a
    number that is the entry's modulo 128. -/
theorem ioapicCalls_refine (io : IoApic) {cs : List IoApicCall} (hreads : ∀ c ∈ cs, io.table.Reads c) :
    ∃ io' t out, run ioapicCall io cs = .ok (io', out) ∧ run RedirectionTable.call io.table cs = .ok (t, out) ∧
      HasTable io' t ∧ t.version = io.version ∧ t.entry = LastWrite.apply (entryWrites cs) io.entry := by
  have hstart : HasTable io io.table := ⟨rfl, fun _ _ => rfl⟩
  have hagree := run_agree (fun _ _ _ => HasTable.call) hstart (allowed_of_reads hreads)
  obtain ⟨out, hrun⟩ : ∃ out, run RedirectionTable.call io.table cs = .ok (_, out) := run_call
  rw [hrun] at hagree
  generalize run ioapicCall io cs = x at hagree
  cases hagree with
  | ok h => exact ⟨_, _, _, rfl, hrun, h, rfl, rfl⟩

/-- Numbers that are 1 modulo 128 mean the same entry. -/
def sampleCalls : List IoApicCall := [.configureEntry 1 (1 <<< 16), .read IOAPICVER_REG, .configureEntry 129 33, .read 0x12]

theorem ioapicCalls_refine_sample : ∃ io' t out, run ioapicCall clearIoApic sampleCalls = .ok (io', out) ∧
    run RedirectionTable.call clearIoApic.table sampleCalls = .ok (t, out) ∧ HasTable io' t ∧
    t.version = clearIoApic.version ∧ t.entry = LastWrite.apply (entryWrites sampleCalls) clearIoApic.entry := by
  refine ioapicCalls_refine clearIoApic fun c hc => ?_
  simp only [sampleCalls, List.mem_cons, List.not_mem_nil, or_false] at hc
  rcases hc with rfl | rfl | rfl | rfl
  · trivial
  · exact Or.inl rfl
  · trivial
  · exact Or.inr (by decide)

example : (run ioapicCall clearIoApic sampleCalls).map Prod.snd = .ok [0x170011, 33] := rfl

end Neobird64
