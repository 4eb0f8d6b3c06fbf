import Mathlib.Data.BitVec
import Neobird64.Lib.RecordWalk
import Neobird64.Apic

/-! The walk of `get_madt_tables` over any bytes: when it ends, and which bytes it and `find_gsi` read. -/

namespace Neobird64
open State

def tablePointer (madt : Word) (off : Nat) : Word := madt + BitVec.ofNat 64 off

/-- The length byte of the record at offset `off` of the table. -/
def recordSize (s : State) (madt : Word) (off : Nat) : Nat :=
  (s.loadByte .identity (tablePointer madt off + offsetofRecordLength)).toNat

/-- The offsets of the records that the bytes of the table spell. `length` is an `int`: there is none in a
    table of 2^31 + 44 bytes or more. -/
def tableRecords (s : State) (madt : Word) : List Nat :=
  let length := (tableLength s madt).toNat
  if length < 2 ^ 31 + 44 then RecordWalk.offsets (recordSize s madt) length (length - 44) 44 else []

/-- The loop variables after `n` records, without fuel. -/
def madtCursor (s : State) (madt : Word) (n : Nat) : MadtCursor :=
  (MadtCursor.next s)^[n] ⟨madt + offsetofFirstIcs, madtLength s madt⟩

section
variable {s : State} {madt : Word} {g : MadtTables} {off : Nat}

/-! ### The loop -/

theorem madtLength_eq : madtLength s madt =
    if (tableLength s madt).toNat < 2 ^ 31 + 44 then ((tableLength s madt).toNat : Int) - 44
    else ((tableLength s madt).toNat : Int) - 44 - 2 ^ 32 := by
  have hlt := (tableLength s madt).isLt
  have hsize : (BitVec.ofNat 64 sizeofMadt).toNat = 46 := rfl
  have htwo : (2 : Word).toNat = 2 := rfl
  rw [madtLength, toInt, BitVec.toInt_eq_toNat_cond, BitVec.toNat_setWidth, BitVec.toNat_add, BitVec.toNat_sub,
    BitVec.toNat_setWidth, hsize, htwo]
  split <;> split <;> omega

def recordLimit (s : State) (madt : Word) : Nat := (44 + madtLength s madt).toNat

/-- The loop variables at the record at offset `off`. -/
def cursorAt (s : State) (madt : Word) (off : Nat) : MadtCursor := ⟨tablePointer madt off, madtLength s madt + 44 - off⟩

theorem tablePointer_add (off k : Nat) : tablePointer madt (off + k) = tablePointer madt off + BitVec.ofNat 64 k := by
  rw [tablePointer, tablePointer, BitVec.ofNat_add, BitVec.add_assoc]

theorem next_cursorAt (off : Nat) :
    MadtCursor.next s (cursorAt s madt off) = cursorAt s madt (RecordWalk.step (recordSize s madt) off) := by
  have hwide : (s.loadByte .identity (tablePointer madt off + offsetofRecordLength)).setWidth 64 =
      BitVec.ofNat 64 (recordSize s madt off) := by
    apply BitVec.eq_of_toNat_eq
    rw [BitVec.toNat_setWidth, BitVec.toNat_ofNat, recordSize]
  rw [MadtCursor.next, cursorAt, cursorAt, RecordWalk.step, tablePointer_add, MadtCursor.mk.injEq]
  refine ⟨congrArg (tablePointer madt off + ·) hwide, ?_⟩
  rw [recordSize]
  simp only
  omega

theorem cond_cursorAt (s : State) (madt : Word) (off : Nat) : decide (0 < (cursorAt s madt off).length) = decide (off < recordLimit s madt) := by
  rw [decide_eq_decide, recordLimit]
  simp only [cursorAt]
  omega

theorem tableRecords_eq : tableRecords s madt =
    RecordWalk.offsets (recordSize s madt) (recordLimit s madt) (recordLimit s madt - 44) 44 := by
  rw [tableRecords, recordLimit, madtLength_eq]
  split
  · have hlimit : (44 + (((tableLength s madt).toNat : Int) - 44)).toNat = (tableLength s madt).toNat := by omega
    rw [hlimit]
  · have hlt := (tableLength s madt).isLt
    rw [RecordWalk.offsets_of_le (by omega)]

theorem first_cursorAt : cursorAt s madt 44 = ⟨madt + offsetofFirstIcs, madtLength s madt⟩ := by
  rw [cursorAt, MadtCursor.mk.injEq]
  exact ⟨rfl, by omega⟩

theorem madtCursor_eq (n : Nat) : madtCursor s madt n = cursorAt s madt ((RecordWalk.step (recordSize s madt))^[n] 44) := by
  rw [madtCursor, ← first_cursorAt, RecordWalk.iterate_cursor next_cursorAt]

/-- A loop that meets no record of size 0 is a fold over the records. -/
theorem forRecords_ok {σ : Type} {body : σ → Word → σ} (h : ∀ off ∈ tableRecords s madt, recordSize s madt off ≠ 0) (g : σ) :
    forRecords s madt body g = .ok (((tableRecords s madt).map (tablePointer madt)).foldl body g) := by
  have hfuel : recordLimit s madt - 44 < recordFuel := by
    have hlt := (tableLength s madt).isLt
    rw [recordLimit, madtLength_eq, recordFuel]
    split <;> omega
  rw [tableRecords_eq] at h ⊢
  rw [forRecords, ← first_cursorAt, RecordWalk.forLoop_eq next_cursorAt (cond_cursorAt s madt) (Nat.le_refl _) hfuel h,
    List.foldlM_map, List.foldl_map]
  exact Loop.foldlM_ok

theorem madtCursor_ends_iff : (∃ n, (madtCursor s madt n).length ≤ 0) ↔
    ∀ off ∈ tableRecords s madt, recordSize s madt off ≠ 0 := by
  rw [tableRecords_eq, ← RecordWalk.reaches_iff (Nat.le_refl _)]
  refine exists_congr fun n => ?_
  have hcond := cond_cursorAt s madt ((RecordWalk.step (recordSize s madt))^[n] 44)
  rw [decide_eq_decide] at hcond
  rw [madtCursor_eq]
  omega

theorem getMadtTables_returns_iff : (∃ g', getMadtTables s madt g = .ok g') ↔ ∃ n, (madtCursor s madt n).length ≤ 0 := by
  constructor
  · intro h
    obtain ⟨n, -, hn⟩ := Loop.forLoop_returns_iff.mp h
    exact ⟨n, by simpa [madtCursor] using hn⟩
  · intro h
    exact ⟨_, forRecords_ok (madtCursor_ends_iff.mp h) _⟩

/-- `get_madt_tables` ends exactly when no record that it gets to has a length byte of 0, and the loop with fuel
    returns exactly then. -/
theorem getMadtTables_terminates_iff (s : State) (madt : Word) (g : MadtTables) :
    ((∃ n, (madtCursor s madt n).length ≤ 0) ↔ ∀ off ∈ tableRecords s madt, recordSize s madt off ≠ 0) ∧
      ((∃ n, (madtCursor s madt n).length ≤ 0) ↔ ∃ g', getMadtTables s madt g = .ok g') :=
  ⟨madtCursor_ends_iff, getMadtTables_returns_iff.symm⟩

end

/-- A memory of zeros with a length field of a table at 0x1000. -/
def zeroTable (length : Nat) : State where
  mem := Memory.writeLE (fun _ => 0) 0x1004 4 length

/-- In a table of 46 bytes with a record of length 0 the loop stays at this record. -/
theorem zero_length_hangs : (tableLength (zeroTable 46) 0x1000).toNat = 46 ∧
    ¬∃ n, (madtCursor (zeroTable 46) 0x1000 n).length ≤ 0 := by
  have hlength : (tableLength (zeroTable 46) 0x1000).toNat = 46 := by decide +kernel
  refine ⟨hlength, fun h => ?_⟩
  have hzero : recordSize (zeroTable 46) 0x1000 44 = 0 := by decide +kernel
  refine madtCursor_ends_iff.mp h 44 ?_ hzero
  rw [tableRecords, hlength]
  exact List.mem_cons_self

end Neobird64
