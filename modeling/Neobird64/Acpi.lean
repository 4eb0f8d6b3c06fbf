import Neobird64.State

/-! `kern/sys/acpi/acpi.c`: the lookup of the ACPI tables, which runs before `vmm_init` under the
    identity map of the boot loader. What the functions print is left out. -/

namespace Neobird64

/-- Offsets and sizes of the packed structs of `acpi.h`. -/
def sizeofSdt : Nat := 36
def offsetofLength : Word := 4
def offsetofRsdtaddress : Word := 16
def offsetofXsdtaddress : Word := 24
def offsetofLapicaddr : Word := 36

def parseXsdt (s : State) (rsdp : Word) : Word :=
  let xsdtaddress := s.load64 .identity (rsdp + offsetofXsdtaddress)
  if xsdtaddress = 0 then 0 else xsdtaddress + s.hhdmoffset

def parseRsdt (s : State) (rsdp : Word) : Word :=
  let rsdtaddress := s.load32 .identity (rsdp + offsetofRsdtaddress)
  if rsdtaddress = 0 then 0 else rsdtaddress.setWidth 64 + s.hhdmoffset

/-- `header.length` of the table at `p`. -/
def tableLength (s : State) (p : Word) : BitVec 32 := s.load32 .identity (p + offsetofLength)

/-- `(length - sizeof(sdt_t)) / width` as an `int`: the subtraction is done in `size_t`. -/
def tableEntries (length : BitVec 32) (width : Word) : Int :=
  toInt ((length.setWidth 64 - BitVec.ofNat 64 sizeofSdt) / width)

/-- The pointer in slot `i` of the root table: the XSDT when there is one, else the RSDT. -/
def tablePtr (s : State) (rsdt xsdt : Word) (i : Nat) : Word :=
  if xsdt = 0 then (s.load32 .identity (rsdt + BitVec.ofNat 64 (sizeofSdt + 4 * i))).setWidth 64
  else s.load64 .identity (xsdt + BitVec.ofNat 64 (sizeofSdt + 8 * i))

/-- The slots of the root table as an `int`. -/
def rootEntries (s : State) (rsdt xsdt : Word) : Int :=
  if xsdt = 0 then tableEntries (tableLength s rsdt) 4 else tableEntries (tableLength s xsdt) 8

/-- The loop of `find_acpi_table` over the pointers. It has no test for NULL, through which `memcmp` then reads. -/
def searchTables (s : State) (signature : Nat → BitVec 8) : List Word → Except Halt Word
  | [] => .ok 0
  | header :: headers =>
    if header = 0 then .error .fault
    else if memcmp (fun k => s.loadByte .identity (header + BitVec.ofNat 64 k)) signature 4 = 0 then .ok header
    else searchTables s signature headers

/-- The first table of the root table with the given signature, 0 (NULL) when there is none. -/
def findAcpiTable (s : State) (signature : Nat → BitVec 8) (rsdt xsdt : Word) : Except Halt Word :=
  if xsdt = 0 ∧ rsdt = 0 then .error .fault
  else searchTables s signature ((List.range (rootEntries s rsdt xsdt).toNat).map (tablePtr s rsdt xsdt))

/-- The bytes of a signature such as `"APIC"`. -/
def signatureBytes (text : String) (i : Nat) : BitVec 8 := BitVec.ofNat 8 (text.toList.getD i ' ').toNat

/-- `init_acpi` up to the call of `init_apic`. -/
def lookupTables (b : Boot) (s : State) : Except Halt State :=
  match b.rsdp with
  | none => .error (.panic "RSDP not recieved, halting.")
  | some rsdp => do
    let rsdt := parseRsdt s rsdp
    let xsdt := parseXsdt s rsdp
    let madt ← findAcpiTable s (signatureBytes "APIC") rsdt xsdt
    if madt = 0 then throw (.panic "MADT table not found, hanging")
    let fadt ← findAcpiTable s (signatureBytes "FACP") rsdt xsdt
    if fadt = 0 then throw (.panic "FADT table not found, hanging")
    return { s with rsdt, xsdt, madt, fadt }

/-! ### The bytes that `find_acpi_table` reads, as pointers with a number of bytes -/

/-- Where slot `i` of the root table is. -/
def slotRead (rsdt xsdt : Word) (i : Nat) : Word × Nat :=
  if xsdt = 0 then (rsdt + BitVec.ofNat 64 (sizeofSdt + 4 * i), 4) else (xsdt + BitVec.ofNat 64 (sizeofSdt + 8 * i), 8)

/-- The reads of `memcmp` from the signature at `header`, from byte `k` on: none behind the first difference. -/
def signatureReads (s : State) (signature : Nat → BitVec 8) (header : Word) (k : Nat) : Nat → List (Word × Nat)
  | 0 => []
  | n + 1 =>
    let p := header + BitVec.ofNat 64 k
    (p, 1) :: if s.loadByte .identity p = signature k then signatureReads s signature header (k + 1) n else []

/-- The slots that the loop reads, of those in the list. -/
def slotsRead (s : State) (signature : Nat → BitVec 8) (rsdt xsdt : Word) : List Nat → List Nat
  | [] => []
  | i :: slots =>
    let header := tablePtr s rsdt xsdt i
    i :: if header = 0 ∨ memcmp (fun k => s.loadByte .identity (header + BitVec.ofNat 64 k)) signature 4 = 0 then []
      else slotsRead s signature rsdt xsdt slots

/-- The reads of pointers to tables. -/
def pointerReads (s : State) (signature : Nat → BitVec 8) (rsdt xsdt : Word) : List (Word × Nat) :=
  (slotsRead s signature rsdt xsdt (List.range (rootEntries s rsdt xsdt).toNat)).map (slotRead rsdt xsdt)

/-- All reads of `find_acpi_table`. -/
def findAcpiTableReads (s : State) (signature : Nat → BitVec 8) (rsdt xsdt : Word) : List (Word × Nat) :=
  let root := if xsdt = 0 then rsdt else xsdt
  (root + offsetofLength, 4) :: pointerReads s signature rsdt xsdt ++
    (slotsRead s signature rsdt xsdt (List.range (rootEntries s rsdt xsdt).toNat)).flatMap fun i =>
      signatureReads s signature (tablePtr s rsdt xsdt i) 0 4

end Neobird64
