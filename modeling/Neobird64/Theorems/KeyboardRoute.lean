import Neobird64.Theorems.IoApic
import Neobird64.Theorems.IcsArray

/-! Where `ps2_int_init` sends the interrupt of the keyboard on a machine with any number of I/O APICs.
    `ioapic_address` is that of the last record, and the bases of the I/O APICs are not read. -/

namespace Neobird64
open State Record

def gsiBase (r : Record) : BitVec 32 := r.word32 8

/-- The global interrupt of ISA interrupt 1. -/
def keyboardGsi (rs : List Record) : BitVec 32 := ((rs.find? (overrides 1)).map fun r => r.word32 4).getD 1

/-- The global interrupt is one of those of the I/O APIC of the record. -/
def InRange (devices : Word → IoApic) (gsi : BitVec 32) (r : Record) : Prop :=
  r.type = 1 ∧ (gsiBase r).toNat ≤ gsi.toNat ∧ gsi.toNat ≤ (gsiBase r).toNat + (devices (ioapicaddr r)).highest

/-- Entry `n` of the I/O APIC of the record `r` is programmed for the keyboard, and no other I/O APIC is changed. -/
structure Programmed (rs : List Record) (devices devices' : Word → IoApic) (r : Record) (n : Nat) : Prop where
  low : (devices' (ioapicaddr r)).entryLow n = 33
  high : (devices' (ioapicaddr r)).entryHigh n = 0
  others : ∀ r' ∈ rs, r'.type = 1 → ioapicaddr r' ≠ ioapicaddr r → ∀ e ≤ (devices (ioapicaddr r')).highest,
    (devices' (ioapicaddr r')).entryLow e = (devices (ioapicaddr r')).entryLow e ∧
      (devices' (ioapicaddr r')).entryHigh e = (devices (ioapicaddr r')).entryHigh e

/-- Whatever the entries of the I/O APICs are, `ps2_int_init` programs the one of the keyboard's global interrupt. -/
def KeyboardRouted (s : State) (madt : Word) (rs : List Record) (devices : Word → IoApic) : Prop :=
  ∃ g, getMadtTables s madt {} = .ok g ∧ ∃ r ∈ rs, InRange devices (keyboardGsi rs) r ∧
    ∀ devices' : Word → IoApic, (∀ a, (devices' a).version = (devices a).version) →
      Programmed rs devices' (ps2IntInit s g devices') r ((keyboardGsi rs).toNat - (gsiBase r).toNat)

/-- The records that `get_madt_tables` visits. -/
def seenRecords (rs : List Record) : List Record := if size rs < 2 ^ 31 then rs else []

def lastIoapic (rs : List Record) : Word := (((rs.filter fun r => r.type = 1).getLast?).map ioapicaddr).getD 0

/-- The global interrupt by the first override of ISA interrupt 1 among the first 64 records with an entry. -/
def scannedGsi (rs : List Record) : BitVec 32 :=
  ((((rs.filter retained).take 64).find? (overrides 1)).map fun r => r.word32 4).getD 1

/-- The keyboard's global interrupt belongs to the I/O APIC with the address of the last one, and the number that
    `find_gsi` finds for it is its index there, modulo 128. -/
def RouteOk (rs : List Record) (devices : Word → IoApic) : Prop :=
  ∃ r ∈ rs, InRange devices (keyboardGsi rs) r ∧ ioapicaddr r = lastIoapic (seenRecords rs) ∧
    (scannedGsi (seenRecords rs)).toNat % 128 = (keyboardGsi rs).toNat - (gsiBase r).toNat

section
variable {s : State} {madt : Word} {rs : List Record} {devices : Word → IoApic} {io : IoApic} {gsi pin : BitVec 32} {e : Nat}

/-! ### What `get_madt_tables` and `find_gsi` give -/

theorem findSome?_overrides : ∀ {l : List Record},
    l.findSome? (fun r => if overrides pin r then some (r.word32 4) else none) =
      (l.find? (overrides pin)).map fun r => r.word32 4
  | [] => rfl
  | r :: l => by
    rw [List.findSome?_cons, List.find?_cons]
    cases hr : overrides pin r with
    | true => rfl
    | false => exact findSome?_overrides

theorem map_snd_scanned (a : Nat) : (((placed a rs).filter fun x => retained x.2).take 64).map Prod.snd =
    (rs.filter retained).take 64 := by
  have hmap : rs = (placed a rs).map Prod.snd := map_snd_placed.symm
  conv_rhs => rw [hmap, List.filter_map, ← List.map_take]
  rfl

/-- The keyboard's I/O APIC and global interrupt as `ps2_int_init` has them. -/
theorem getMadtTables_keyboard (h : MadtAt s madt rs) : ∃ g, getMadtTables s madt {} = .ok g ∧
    g.ioapicAddress = lastIoapic (seenRecords rs) ∧ findGsi s g.icsArray 1 = scannedGsi (seenRecords rs) := by
  rcases Nat.lt_or_ge (size rs) (2 ^ 31) with hsize | hsize
  · have hics := icsArray_of_zero (g := {}) (l := placed (madt.toNat + 44) rs) fun _ _ => rfl
    refine ⟨_, getMadtTables_eq h hsize, ?_, ?_⟩
    · rw [ioapicAddress_foldl, map_snd_placed, seenRecords, if_pos hsize, lastIoapic]
    · rw [seenRecords, if_pos hsize, scannedGsi, ← findSome?_overrides, ← map_snd_scanned (madt.toNat + 44),
        List.findSome?_map]
      refine findGsi_eq (fun x hx => ?_) (List.length_take_le 64 _) fun i hi => ?_
      · have hmem := List.mem_of_mem_filter (List.mem_of_mem_take hx)
        obtain ⟨hr, hle⟩ := holds_of_placed h.records hmem
        have hext := h.extent
        exact ⟨hr, by omega, h.fits _ (mem_of_placed hmem)⟩
      · rw [hics, List.getElem?_take_of_lt hi]
  · refine ⟨_, forRecords_of_large h hsize _, ?_, ?_⟩
    · rw [seenRecords, if_neg (by omega)]
      rfl
    · rw [seenRecords, if_neg (by omega)]
      exact findGsi_eq (l := []) (fun x hx => nomatch hx) (Nat.zero_le _) fun _ _ => rfl

/-! ### What `ps2_int_init` makes of one I/O APIC -/

theorem setWidth_mod : (gsi.setWidth 8).toNat % 128 = gsi.toNat % 128 := by
  rw [BitVec.toNat_setWidth]
  omega

theorem entryLow_ps2IntInit (he : e ≤ 119) : (io.run (ps2IntInitStores gsi)).entryLow e =
    if gsi.toNat % 128 = e then 33 else io.entryLow e := by
  rw [ps2IntInitStores, IoApic.run_append, entryLow_configureEntry he, entryLow_configureEntry he, setWidth_mod]
  split <;> rfl

theorem entryHigh_ps2IntInit (he : e ≤ 119) : (io.run (ps2IntInitStores gsi)).entryHigh e =
    if gsi.toNat % 128 = e then 0 else io.entryHigh e := by
  rw [ps2IntInitStores, IoApic.run_append, entryHigh_configureEntry he, entryHigh_configureEntry he, setWidth_mod]
  split <;> rfl

/-- The same I/O APIC with zeros in all registers but the version. -/
def IoApic.cleared (io : IoApic) : IoApic where
  file := { index := 0, regs := fun r => if r = IOAPICVER_REG then io.version else 0 }
  fits := io.fits

theorem IoApic.version_cleared : io.cleared.version = io.version := rfl

theorem IoApic.entryLow_cleared : io.cleared.entryLow e = 0 := by
  have hne : BitVec.ofNat 8 (0x10 + 2 * e) ≠ IOAPICVER_REG := fun heq => by
    have h1 : IOAPICVER_REG.toNat = 1 := rfl
    have hnat := congrArg BitVec.toNat heq
    rw [h1, BitVec.toNat_ofNat] at hnat
    omega
  exact if_neg hne

/-! ### All I/O APICs -/

theorem InRange.index_le {r : Record} (h : InRange devices gsi r) : gsi.toNat - (gsiBase r).toNat ≤ 119 := by
  obtain ⟨-, -, hhi⟩ := h
  have hfits : (devices (ioapicaddr r)).highest ≤ 119 := (devices (ioapicaddr r)).fits
  omega

theorem KeyboardRouted.routeOk (h : MadtAt s madt rs) (hrouted : KeyboardRouted s madt rs devices) : RouteOk rs devices := by
  obtain ⟨g, hg, r, hr, hrange, hall⟩ := hrouted
  obtain ⟨g', hg', haddr, hgsi⟩ := getMadtTables_keyboard h
  rw [hg] at hg'
  cases hg'
  have he := hrange.index_le
  -- With all entries 0, the entry has vector 33 only if it was written.
  have hlow := (hall (fun a => (devices a).cleared) fun _ => IoApic.version_cleared).low
  rw [ps2IntInit] at hlow
  by_cases hlast : ioapicaddr r = g.ioapicAddress
  · rw [hlast, Function.update_self, entryLow_ps2IntInit he, IoApic.entryLow_cleared, hgsi] at hlow
    refine ⟨r, hr, hrange, hlast.trans haddr, ?_⟩
    by_contra hne
    rw [if_neg hne] at hlow
    exact absurd hlow (by decide)
  · rw [Function.update_of_ne hlast, IoApic.entryLow_cleared] at hlow
    exact absurd hlow (by decide)

theorem RouteOk.keyboardRouted (h : MadtAt s madt rs) (hroute : RouteOk rs devices) : KeyboardRouted s madt rs devices := by
  obtain ⟨r, hr, hrange, hlast, hindex⟩ := hroute
  obtain ⟨g, hg, haddr, hgsi⟩ := getMadtTables_keyboard h
  have he := hrange.index_le
  have hsame : ioapicaddr r = g.ioapicAddress := hlast.trans haddr.symm
  refine ⟨g, hg, r, hr, hrange, fun devices' _ => ⟨?_, ?_, fun r' _ _ hne e _ => ?_⟩⟩
  · rw [ps2IntInit, hsame, Function.update_self, entryLow_ps2IntInit he, hgsi, if_pos hindex]
  · rw [ps2IntInit, hsame, Function.update_self, entryHigh_ps2IntInit he, hgsi, if_pos hindex]
  · rw [ps2IntInit, Function.update_of_ne (hsame ▸ hne)]
    exact ⟨rfl, rfl⟩

/-- The keyboard's interrupt is routed exactly when its I/O APIC has the address of the last one and a base that the
    narrowing of the number leaves out. -/
theorem keyboardRouted_iff (h : MadtAt s madt rs) : KeyboardRouted s madt rs devices ↔ RouteOk rs devices :=
  ⟨KeyboardRouted.routeOk h, RouteOk.keyboardRouted h⟩

end

/-! ### Two I/O APICs -/

/-- An I/O APIC in the 64 KiB at 0xfec00000, for the global interrupts from `base` on. -/
def ioapicRecord (page base : BitVec 8) : Record where
  type := 1
  body := [0, 0, 0x00, page, 0xc0, 0xfe, base, 0, 0, 0]
  fits := by simp

theorem keyboardRouted_iff_sample :
    KeyboardRouted (tableState [ioapicRecord 0 0]) 0x1000 [ioapicRecord 0 0] fun _ => clearIoApic :=
  (keyboardRouted_iff (madtAt_tableState (by decide) (by decide))).mpr
    ⟨ioapicRecord 0 0, List.mem_singleton_self _, ⟨rfl, by decide, by decide⟩, by decide, by decide⟩

/-- The keyboard belongs to the first of two I/O APICs, and the second one is programmed. -/
theorem second_ioapic_programmed :
    MadtAt (tableState [ioapicRecord 0x00 0, ioapicRecord 0x10 24]) 0x1000 [ioapicRecord 0x00 0, ioapicRecord 0x10 24] ∧
    ¬KeyboardRouted (tableState [ioapicRecord 0x00 0, ioapicRecord 0x10 24]) 0x1000
      [ioapicRecord 0x00 0, ioapicRecord 0x10 24] fun _ => clearIoApic := by
  have hat : MadtAt (tableState [ioapicRecord 0x00 0, ioapicRecord 0x10 24]) 0x1000
      [ioapicRecord 0x00 0, ioapicRecord 0x10 24] := madtAt_tableState (by decide) (by decide)
  refine ⟨hat, fun hrouted => ?_⟩
  obtain ⟨r, hr, hrange, hlast, -⟩ := hrouted.routeOk hat
  rcases List.mem_cons.mp hr with rfl | hr
  · exact absurd hlast (by decide)
  · rw [List.mem_singleton] at hr
    subst hr
    exact absurd hrange.2.1 (by decide)

end Neobird64
