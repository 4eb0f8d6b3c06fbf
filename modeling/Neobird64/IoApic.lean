import Neobird64.Apic
import Neobird64.Lib.RegisterFile

/-! The I/O APIC and the functions of `kern/sys/acpi/apic.c` that program it. -/

namespace Neobird64

def IOAPICVER_REG : BitVec 8 := 1

/-- Bits 16 to 23 of the version register: the highest index of a redirection entry. -/
def highestEntry (version : BitVec 32) : Nat := (version.extractLsb' 16 8).toNat

/-- The version register of an I/O APIC is read-only. -/
def ioapicReadOnly (reg : BitVec 8) : Bool := reg = IOAPICVER_REG

/-- An I/O APIC: the registers of all its redirection entries have an index of 8 bits. -/
@[ext]
structure IoApic where
  file : RegisterFile (BitVec 8) (BitVec 32)
  fits : highestEntry (file.regs IOAPICVER_REG) ≤ 119

abbrev IoApicStore := RegisterFile.Store (BitVec 8) (BitVec 32)

namespace IoApic

def version (io : IoApic) : BitVec 32 := io.file.regs IOAPICVER_REG

def highest (io : IoApic) : Nat := highestEntry io.version

def entryLow (io : IoApic) (n : Nat) : BitVec 32 := io.file.regs (BitVec.ofNat 8 (0x10 + 2 * n))

def entryHigh (io : IoApic) (n : Nat) : BitVec 32 := io.file.regs (BitVec.ofNat 8 (0x11 + 2 * n))

/-- Bit 16 of a redirection entry. -/
def masked (io : IoApic) (n : Nat) : Bool := (io.entryLow n).getLsbD 16

def vector (io : IoApic) (n : Nat) : BitVec 8 := (io.entryLow n).setWidth 8

def run (io : IoApic) (l : List IoApicStore) : IoApic where
  file := io.file.run ioapicReadOnly l
  fits := by
    have hversion : ioapicReadOnly IOAPICVER_REG = true := rfl
    rw [RegisterFile.regs_run_of_readOnly hversion]
    exact io.fits

end IoApic

/-! ### `apic.c` -/

/-- `IOAPICREDTBL_REG(n)` in the `uint8_t` that it is passed in. -/
def ioapicRedtblReg (n : BitVec 8) : BitVec 8 := 0x10 + 2 * n

def ioapicRead (io : IoApic) (reg : BitVec 8) : BitVec 32 × IoApic :=
  let io := io.run [.index reg]
  (io.file.load, io)

def ioapicWrite (reg : BitVec 8) (value : BitVec 32) : List IoApicStore := RegisterFile.write reg value

/-- The stores of `ioapic_configure_entry`: the low half of the entry, then the high half. -/
def ioapicConfigureEntry (reg : BitVec 8) (val : Word) : List IoApicStore :=
  ioapicWrite (ioapicRedtblReg reg) (val.setWidth 32) ++ ioapicWrite (ioapicRedtblReg reg + 1) ((val >>> 32).setWidth 32)

/-- More rounds than the loop over the pins makes: its bound is a byte. -/
def pinFuel : Nat := 2 ^ 8

/-- The loop of `init_apic` that masks the pins of the I/O APIC, up to `(ioapic_read(...) >> 16) & 0xFF`, which it reads
    again in every round. -/
def maskPins (io : IoApic) : Except Halt IoApic :=
  Loop.testLoop .hang
    (fun io (i : BitVec 32) =>
      let read := ioapicRead io IOAPICVER_REG
      (read.2, decide (i ≠ read.1.sshiftRight 16 &&& 0xff)))
    (fun i => i + 1)
    (fun io i => io.run (ioapicConfigureEntry (i.setWidth 8) (1 <<< 16)))
    pinFuel 0 io

/-- The stores of `ps2_int_init`, where the `int gsi` is passed as a `uint8_t`: unmask, then set the vector to 33. -/
def ps2IntInitStores (gsi : BitVec 32) : List IoApicStore :=
  ioapicConfigureEntry (gsi.setWidth 8) (0 <<< 16) ++ ioapicConfigureEntry (gsi.setWidth 8) 33

/-- `ps2_int_init` on the machine whose I/O APICs are `devices`, by address. -/
def ps2IntInit (s : State) (g : MadtTables) (devices : Word → IoApic) : Word → IoApic :=
  let gsi := findGsi s g.icsArray 1
  Function.update devices g.ioapicAddress ((devices g.ioapicAddress).run (ps2IntInitStores gsi))

end Neobird64
