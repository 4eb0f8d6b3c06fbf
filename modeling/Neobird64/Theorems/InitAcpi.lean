import Neobird64.InitAcpi
import Neobird64.Theorems.Acpi
import Neobird64.Theorems.IoApic
import Neobird64.Theorems.Madt
import Neobird64.Theorems.MadtReads
import Neobird64.Theorems.PmTimer
import Neobird64.Theorems.Ps2Controller

/-! What `init_acpi` leaves behind, and on which machines `init_apic`, which it ends with, returns at all. -/

namespace Neobird64
open State

/-- The address in the last record of type 1, or NULL. -/
def seenIoapic (s : State) (madt : Word) : Word :=
  ((((tableRecords s madt).filter fun off => recordType s madt off = 1).getLast?).map fun off =>
    (s.load32 .identity (tablePointer madt off + offsetofIoapicaddr)).setWidth 64).getD 0

/-- The machine has what `init_apic` needs. -/
structure InitApicReturns (d : Devices) (s : State) : Prop where
  /-- The loop over the records of the MADT ends. -/
  records : ∀ off ∈ tableRecords s s.madt, recordSize s s.madt off ≠ 0
  lapic : s.load32 .identity (s.madt + offsetofLapicaddr) ≠ 0
  pmTimerLength : s.loadByte .identity (s.fadt + offsetofPMTimerLength) = 4
  /-- Some poll shows the power-management timer 50 ms after its first reading. -/
  pmTimer : ∃ count polls, d.inl (s.load32 .identity (s.fadt + offsetofPMTimerBlock)) = count :: polls ∧
    ∃ sample ∈ polls, 178977 ≤ (pmtCurrent (count.setWidth 64) sample).toNat
  ioapic : seenIoapic s s.madt ≠ 0

section
variable {b : Boot} {d d' : Devices} {s s' : State} {madt : Word} {g g' : MadtTables}

/-! ### The globals -/

theorem lookupTables_globals (h : lookupTables b s = .ok s') : s' = { s with
    rsdt := s'.rsdt
    xsdt := s'.xsdt
    madt := s'.madt
    fadt := s'.fadt } := by
  rw [lookupTables] at h
  split at h
  · cases h
  · obtain ⟨madt, -, h⟩ := Loop.bind_eq_ok.mp h
    split at h
    · cases h
    · obtain ⟨fadt, -, h⟩ := Loop.bind_eq_ok.mp h
      split at h
      · cases h
      · rw [← Except.ok.inj h]

theorem initApic_state (h : initApic d s = .ok (s', d')) :
    s' = { s with lapicAddr := s.load32 .identity (s.madt + offsetofLapicaddr) } := by
  rw [initApic] at h
  obtain ⟨g, -, h⟩ := Loop.bind_eq_ok.mp h
  simp only at h
  split at h
  · cases h
  · obtain ⟨-, -, h⟩ := Loop.bind_eq_ok.mp h
    split at h
    · cases h
    · obtain ⟨io, -, h⟩ := Loop.bind_eq_ok.mp h
      obtain ⟨run, -, h⟩ := Loop.bind_eq_ok.mp h
      cases h
      rfl

theorem initAcpi_eq_ok : initAcpi b d s = .ok s' ↔
    ∃ t d', lookupTables b s = .ok t ∧ initApic d t = .ok (s', d') := by
  constructor
  · intro h
    obtain ⟨t, ht, h⟩ := Loop.bind_eq_ok.mp h
    obtain ⟨⟨u, d'⟩, hu, h⟩ := Loop.bind_eq_ok.mp h
    cases h
    exact ⟨t, d', ht, hu⟩
  · rintro ⟨t, d', ht, hu⟩
    rw [initAcpi, ht, Loop.ok_bind, hu]
    rfl

/-- The globals that `init_acpi` sets come from the lookup of the tables. -/
theorem initAcpi_tables (h : initAcpi b d s = .ok s') : ∃ t, lookupTables b s = .ok t ∧
    s' = { t with lapicAddr := t.load32 .identity (t.madt + offsetofLapicaddr) } := by
  obtain ⟨t, d', ht, hu⟩ := initAcpi_eq_ok.mp h
  exact ⟨t, ht, initApic_state hu⟩

theorem initAcpi_globals (h : initAcpi b d s = .ok s') : s' = { s with
    rsdt := s'.rsdt
    xsdt := s'.xsdt
    madt := s'.madt
    fadt := s'.fadt
    lapicAddr := s'.lapicAddr } := by
  obtain ⟨t, ht, rfl⟩ := initAcpi_tables h
  have hglobals := lookupTables_globals ht
  rw [hglobals]

theorem initAcpi_lapicAddr (h : initAcpi b d s = .ok s') : madtLapicaddr s' = s'.lapicAddr.setWidth 64 := by
  obtain ⟨t, -, rfl⟩ := initAcpi_tables h
  rw [madtLapicaddr, load32, load32, phys, phys]

/-! ### The exits of `init_apic` -/

theorem ioapicAddress_listRecord (s : State) (g : MadtTables) (cur : Word) : (listRecord s g cur).ioapicAddress =
    if s.loadByte .identity cur = 1 then (s.load32 .identity (cur + offsetofIoapicaddr)).setWidth 64 else g.ioapicAddress := by
  simp only [listRecord]
  by_cases h0 : s.loadByte .identity cur = 0
  · have h1 : ¬s.loadByte .identity cur = 1 := by rw [h0]; decide
    rw [if_pos h0, if_neg h1]
    by_cases hflags : s.load32 .identity (cur + offsetofFlags) = 0
    · rw [if_pos hflags]
    · rw [if_neg hflags]
  by_cases h1 : s.loadByte .identity cur = 1
  · rw [if_neg h0, if_pos h1, if_pos h1]
  · rw [if_neg h0, if_neg h1, if_neg h1]
    by_cases h2 : s.loadByte .identity cur = 2
    · rw [if_pos h2]
    · rw [if_neg h2]

theorem ioapicAddress_listRecords (offs : List Nat) (g : MadtTables) :
    ((offs.map (tablePointer madt)).foldl (listRecord s) g).ioapicAddress =
      (((offs.filter fun off => recordType s madt off = 1).getLast?).map fun off =>
        (s.load32 .identity (tablePointer madt off + offsetofIoapicaddr)).setWidth 64).getD g.ioapicAddress := by
  induction offs using List.reverseRecOn with
  | nil => rfl
  | append_singleton offs off ih =>
    rw [List.map_append, List.foldl_append, List.map_singleton, List.foldl_cons, List.foldl_nil, ioapicAddress_listRecord, ih,
      List.filter_append, List.filter_singleton]
    by_cases h1 : recordType s madt off = 1
    · rw [if_pos (show s.loadByte .identity (tablePointer madt off) = 1 from h1), decide_eq_true h1, cond_true,
        List.getLast?_concat]
      rfl
    · rw [if_neg (show ¬s.loadByte .identity (tablePointer madt off) = 1 from h1), decide_eq_false h1, cond_false,
        List.append_nil]

theorem getMadtTables_ioapic (h : getMadtTables s s.madt {} = .ok g) : g.ioapicAddress = seenIoapic s s.madt := by
  have hsizes := madtCursor_ends_iff.mp (getMadtTables_returns_iff.mp ⟨g, h⟩)
  rw [getMadtTables, forRecords_ok hsizes] at h
  rw [← Except.ok.inj h, ioapicAddress_listRecords]
  rfl

/-- The target of a wait for 50 ms. -/
theorem pmtTarget_calibration : (pmtTarget 50000).toNat = 178977 := by decide

theorem pmtLoop_isSome_iff (count : Word) (polls : List (BitVec 32)) :
    (pmtLoop (pmtTarget 50000) count 0 polls).isSome ↔ ∃ sample ∈ polls, 178977 ≤ (pmtCurrent count sample).toNat := by
  have hzero : ¬178977 ≤ (0 : Word).toNat := by decide
  rw [pmtLoop_eq, List.findIdx?_isSome, List.any_eq_true]
  constructor
  · rintro ⟨c, hc, hle⟩
    rw [Bool.not_eq_true', decide_eq_false_iff_not, BitVec.not_lt, BitVec.le_def, pmtTarget_calibration] at hle
    rcases List.mem_cons.mp hc with rfl | hc
    · exact absurd hle hzero
    · obtain ⟨sample, hsample, rfl⟩ := List.mem_map.mp hc
      exact ⟨sample, hsample, hle⟩
  · rintro ⟨sample, hsample, hle⟩
    refine ⟨pmtCurrent count sample, List.mem_cons_of_mem _ (List.mem_map_of_mem hsample), ?_⟩
    rw [Bool.not_eq_true', decide_eq_false_iff_not, BitVec.not_lt, BitVec.le_def, pmtTarget_calibration]
    exact hle

theorem waitPmTimer_ok_iff : waitPmTimer d s 50000 = .ok () ↔ s.loadByte .identity (s.fadt + offsetofPMTimerLength) = 4 ∧
    ∃ count polls, d.inl (s.load32 .identity (s.fadt + offsetofPMTimerBlock)) = count :: polls ∧
      ∃ sample ∈ polls, 178977 ≤ (pmtCurrent (count.setWidth 64) sample).toNat := by
  rw [waitPmTimer]
  by_cases hlen : s.loadByte .identity (s.fadt + offsetofPMTimerLength) = 4
  · rw [pmtDelay.eq_def, if_neg (not_not.mpr hlen)]
    cases hreads : d.inl (s.load32 .identity (s.fadt + offsetofPMTimerBlock)) with
    | nil => exact iff_of_false nofun fun ⟨_, _, _, hcons, _⟩ => nomatch hcons
    | cons count polls =>
      have hloop := pmtLoop_isSome_iff (count.setWidth 64) polls
      have hpoll : (∃ count' polls', count :: polls = count' :: polls' ∧
          ∃ sample ∈ polls', 178977 ≤ (pmtCurrent (count'.setWidth 64) sample).toNat) ↔
          ∃ sample ∈ polls, 178977 ≤ (pmtCurrent (count.setWidth 64) sample).toNat := by simp
      rw [hpoll, and_iff_right hlen, ← hloop]
      cases hrun : pmtLoop (pmtTarget 50000) (count.setWidth 64) 0 polls with
      | none =>
        rw [Loop.ok_bind, hrun]
        exact iff_of_false nofun nofun
      | some n =>
        rw [Loop.ok_bind, hrun]
        exact iff_of_true rfl rfl
  · rw [pmtDelay.eq_def, if_pos hlen]
    exact iff_of_false nofun fun h => hlen h.1

/-- `ps2_init` overwrites what is in the input buffer, and its loops end. -/
theorem ps2Init_ok (c : Ps2Controller) : ∃ run, ps2Init c = .ok run := by
  obtain ⟨run, hrun, -⟩ := ps2Init_eq (c := { c with input := none }) rfl
  exact ⟨run, hrun⟩

theorem initApic_returns (h : InitApicReturns d s) : ∃ r, initApic d s = .ok r := by
  have hg := getMadtTables_ok h.records
  generalize ((tableRecords s s.madt).map (tablePointer s.madt)).foldl (listRecord s) {} = g at hg
  obtain ⟨io, hio, -⟩ := maskPins_ok (d.ioapics g.ioapicAddress)
  obtain ⟨run, hrun⟩ := ps2Init_ok d.ps2
  have hwait := waitPmTimer_ok_iff.mpr ⟨h.pmTimerLength, h.pmTimer⟩
  have hioapic : g.ioapicAddress ≠ 0 := by
    rw [getMadtTables_ioapic hg]
    exact h.ioapic
  rw [initApic, hg, Loop.ok_bind]
  simp only
  rw [if_neg h.lapic, hwait, Loop.ok_bind, if_neg hioapic, hio, Loop.ok_bind, hrun]
  exact ⟨_, rfl⟩

/-- `init_apic` returns exactly when the loop over the MADT ends, the MADT has an address of the LAPIC and of an I/O APIC,
    and the power-management timer of the FADT is there and gets to its target. -/
theorem initApic_returns_iff : (∃ r, initApic d s = .ok r) ↔ InitApicReturns d s := by
  refine ⟨fun ⟨r, h⟩ => ?_, initApic_returns⟩
  rw [initApic] at h
  obtain ⟨g, hg, h⟩ := Loop.bind_eq_ok.mp h
  simp only at h
  split at h
  · cases h
  · rename_i hlapic
    obtain ⟨⟨⟩, hwait, h⟩ := Loop.bind_eq_ok.mp h
    obtain ⟨hlen, hpoll⟩ := waitPmTimer_ok_iff.mp hwait
    split at h
    · cases h
    · rename_i hioapic
      rw [getMadtTables_ioapic hg] at hioapic
      exact ⟨madtCursor_ends_iff.mp (getMadtTables_returns_iff.mp ⟨g, hg⟩), hlapic, hlen, hpoll, hioapic⟩

end

/-! ### The tables of a machine -/

/-- Memory with the RSDP of `sampleBoot` and, from 0x4100800 on, an XSDT of two slots and the FADT; the
    MADT, which has the record of an I/O APIC, is at `m`. -/
def acpiMemoryAt (m : Word) : Memory :=
  let zero : Memory := fun _ => 0
  let rsdp := (zero.writeLE 0x100f 1 2).write64 0x1018 0x4100800
  let xsdt := ((rsdp.writeLE 0x4100804 4 52).write64 0x4100824 m).write64 0x410082c 0x4100900
  let madt := ((xsdt.writeLE m.toNat 4 0x43495041).writeLE (m.toNat + 0x4) 4 56).writeLE (m.toNat + 0x24) 4 0xfee00000
  let ioapic := (madt.writeLE (m.toNat + 0x2c) 2 0x0c01).writeLE (m.toNat + 0x30) 4 0xfec00000
  let fadt := (ioapic.writeLE 0x4100900 4 0x50434146).writeLE 0x4100904 4 116
  (fadt.writeLE 0x410094c 4 0x608).writeLE 0x410095b 1 4

/-- The MADT is in the page at 4 GiB. -/
def acpiMemory : Memory := acpiMemoryAt 0x100000000

/-- The MADT is in the page behind the FADT. -/
def lowMemory : Memory := acpiMemoryAt 0x4101000

/-- The two places of the MADT. -/
def SampleMadt (m : Word) : Prop := m = 0x100000000 ∨ m = 0x4101000

/-- The power-management timer is read twice in calibrate_timer, the second time after 73 ms. -/
def acpiDevices : Devices where
  inl := fun _ => [0, 0x40000]
  ioapics := fun _ => clearIoApic
  ps2 := { output := [], last := ⟨0, false⟩, selfTest := 0x55 }

section
variable {M : List MemmapEntry} {s : State} {mem : Memory} {a : Nat}

/-- `pmm_init` changes one page at the first MiB. -/
theorem LikeSample.mem_pmmInit (like : LikeSample M) (h : pmmInit (sampleBoot M) (entryState mem) = .ok s)
    (ha : a < 0x100000 ∨ 0x101000 ≤ a) : s.mem a = mem a := by
  have ready := pmmInit_ready like.ok rfl h
  have haddr : (usableAddr M).toNat = 0x100000 := by rw [like.addr]; rfl
  refine Neobird64.mem_pmmInit like.ok rfl h (fun hst => ?_) fun bit hbit hptr => ?_
  · rw [ready.storage_iff like.ok, like.size] at hst
    omega
  · obtain ⟨n, hn, rfl⟩ : ∃ n : Nat, n < 16640 ∧ bit = n := by
      rcases List.mem_append.mp hbit with hbit | hbit
      · obtain ⟨n, hn, rfl⟩ := (mem_clearedBits like.ok).mp hbit
        rw [like.pages, Finset.mem_Ico] at hn
        exact ⟨n, hn.2, rfl⟩
      · obtain ⟨i, hi, rfl⟩ := List.mem_map.mp hbit
        rw [List.mem_range] at hi
        have hnat := markedBlock_toNat like.ok hi
        rw [like.size] at hi
        rw [like.block] at hnat
        exact ⟨256 + i, by omega, by rw [toInt_of_lt (by omega), hnat]⟩
    rw [bitmapPtr_natCast, ready.bitmap, BitVec.toNat_add, BitVec.toNat_ofNat, haddr] at hptr
    omega

section
variable {m : Word} (h : ∀ a, a < 0x100000 ∨ 0x101000 ≤ a → s.mem a = acpiMemoryAt m a)
include h

theorem load64_sample {p v : Word} (hp : p.toNat + 8 ≤ 0x100000 ∨ 0x101000 ≤ p.toNat)
    (hv : (acpiMemoryAt m).read64 p.toNat = v) : s.load64 .identity p = v := by
  have hread : s.mem.read64 p.toNat = (acpiMemoryAt m).read64 p.toNat := Memory.read64_congr fun x hx hx' => h x (by omega)
  exact hread.trans hv

theorem load32_sample {p : Word} {v : BitVec 32} (hp : p.toNat + 4 ≤ 0x100000 ∨ 0x101000 ≤ p.toNat)
    (hv : (acpiMemoryAt m).read32 p.toNat = v) : s.load32 .identity p = v := by
  have hread : s.mem.read32 p.toNat = (acpiMemoryAt m).read32 p.toNat := Memory.read32_congr fun x hx hx' => h x (by omega)
  exact hread.trans hv

theorem loadByte_sample {p : Word} {v : BitVec 8} (hp : p.toNat < 0x100000 ∨ 0x101000 ≤ p.toNat)
    (hv : acpiMemoryAt m p.toNat = v) : s.loadByte .identity p = v :=
  (h _ hp).trans hv

variable (hm : SampleMadt m)
include hm

theorem lookupTables_sample (hoff : s.hhdmoffset = 0) : lookupTables (sampleBoot M) s = .ok { s with
    rsdt := 0
    xsdt := 0x4100800
    madt := m
    fadt := 0x4100900 } := by
  have hx : parseXsdt s 0x1000 = 0x4100800 := by
    rw [parseXsdt, load64_sample h (v := 0x4100800) (by decide) (by rcases hm with rfl | rfl <;> decide +kernel), hoff]
    rfl
  have hr : parseRsdt s 0x1000 = 0 := by
    rw [parseRsdt, load32_sample h (v := 0) (by decide) (by rcases hm with rfl | rfl <;> decide +kernel)]
    rfl
  have hcount : tableCount s 0 0x4100800 = 2 := by
    have hentries : rootEntries s 0 0x4100800 = tableEntries (tableLength s 0x4100800) 8 := if_neg (by decide)
    rw [tableCount, hentries, tableLength,
      load32_sample h (v := 52) (by decide) (by rcases hm with rfl | rfl <;> decide +kernel)]
    rfl
  have hmadt : tablePtr s 0 0x4100800 0 = m :=
    load64_sample h (by decide) (by rcases hm with rfl | rfl <;> decide +kernel)
  have hfadt : tablePtr s 0 0x4100800 1 = 0x4100900 :=
    load64_sample h (by decide) (by rcases hm with rfl | rfl <;> decide +kernel)
  have hroot : rootTable 0 0x4100800 ≠ 0 := by decide
  have hnull : m ≠ 0 := by rcases hm with rfl | rfl <;> decide
  have hsig : ∀ k < 4, s.loadByte .identity (m + BitVec.ofNat 64 k) = signatureBytes "APIC" k := fun k hk => by
    rcases hm with rfl | rfl <;> interval_cases k <;> exact loadByte_sample h (by decide) (by decide +kernel)
  have hapic : findAcpiTable s (signatureBytes "APIC") 0 0x4100800 = .ok m := by
    rw [findAcpiTable_of_first hroot (i := 0) (by omega) (fun k hk => ?_) (fun j hj => ?_)
      fun j hj => absurd hj (by omega), hmadt]
    · rw [hmadt]
      exact hsig k hk
    · obtain rfl : j = 0 := by omega
      rwa [hmadt]
  have hfacp : findAcpiTable s (signatureBytes "FACP") 0 0x4100800 = .ok 0x4100900 := by
    rw [findAcpiTable_of_first hroot (i := 1) (by omega) (fun k hk => ?_) (fun j hj => ?_) (fun j hj hfirst => ?_), hfadt]
    · rw [hfadt]
      rcases hm with rfl | rfl <;> interval_cases k <;> exact loadByte_sample h (by decide) (by decide +kernel)
    · interval_cases j
      · rwa [hmadt]
      · rw [hfadt]
        decide
    · obtain rfl : j = 0 := by omega
      have hbyte := hfirst 0 (by omega)
      rw [hmadt, hsig 0 (by omega)] at hbyte
      exact absurd hbyte (by decide)
  have hrsdp : (sampleBoot M).rsdp = some 0x1000 := rfl
  simp only [lookupTables, hrsdp, hx, hr, hapic, hfacp, Loop.ok_bind]
  rw [if_neg hnull]
  rfl

theorem tableLength_sample : tableLength s m = 56 := by
  rcases hm with rfl | rfl <;> exact load32_sample h (by decide) (by decide +kernel)

theorem fadtLength_sample : tableLength s 0x4100900 = 116 := by
  rcases hm with rfl | rfl <;> exact load32_sample h (by decide) (by decide +kernel)

theorem initApicReturns_sample (hmadt : s.madt = m) (hfadt : s.fadt = 0x4100900) : InitApicReturns acpiDevices s := by
  have hlength := tableLength_sample h hm
  have hsize : recordSize s m 44 = 12 := by
    have hbyte : s.loadByte .identity (m + 45) = 12 := by
      rcases hm with rfl | rfl <;> exact loadByte_sample h (by decide) (by decide +kernel)
    rcases hm with rfl | rfl <;> exact congrArg BitVec.toNat hbyte
  have hrecords : tableRecords s m = [44] := by
    have hlt : (44 : Nat) < (56 : BitVec 32).toNat := by decide
    rw [tableRecords, hlength, if_pos (by decide), show (56 : BitVec 32).toNat - 44 = 11 + 1 from rfl, RecordWalk.offsets,
      if_pos hlt, RecordWalk.step, hsize, RecordWalk.offsets_of_le (by decide)]
  have htype : recordType s m 44 = 1 := by
    rcases hm with rfl | rfl <;> exact loadByte_sample h (by decide) (by decide +kernel)
  refine ⟨?_, ?_, ?_, ⟨0, [0x40000], rfl, 0x40000, by decide, by decide⟩, ?_⟩
  · rw [hmadt, hrecords, List.forall_mem_singleton, hsize]
    decide
  · have hlapic : s.load32 .identity (m + offsetofLapicaddr) = 0xfee00000 := by
      rcases hm with rfl | rfl <;> exact load32_sample h (by decide) (by decide +kernel)
    rw [hmadt, hlapic]
    decide
  · rw [hfadt]
    rcases hm with rfl | rfl <;> exact loadByte_sample h (by decide) (by decide +kernel)
  · have haddr : s.load32 .identity (tablePointer m 44 + offsetofIoapicaddr) = 0xfec00000 := by
      rcases hm with rfl | rfl <;> exact load32_sample h (by decide) (by decide +kernel)
    rw [hmadt, seenIoapic, hrecords, List.filter_singleton, htype, decide_eq_true rfl, cond_true, List.getLast?_singleton,
      Option.map_some, haddr]
    decide

theorem initAcpi_sample (hoff : s.hhdmoffset = 0) : initAcpi (sampleBoot M) acpiDevices s = .ok { s with
    rsdt := 0
    xsdt := 0x4100800
    madt := m
    fadt := 0x4100900
    lapicAddr := 0xfee00000 } := by
  have hlookup := lookupTables_sample (M := M) h hm hoff
  obtain ⟨⟨s', d'⟩, hapic⟩ := initApic_returns (initApicReturns_sample (s := { s with
    rsdt := 0, xsdt := 0x4100800, madt := m, fadt := 0x4100900 }) h hm rfl rfl)
  have hstate := initApic_state hapic
  have hlapic : s.load32 .identity (m + offsetofLapicaddr) = 0xfee00000 := by
    rcases hm with rfl | rfl <;> exact load32_sample h (by decide) (by decide +kernel)
  rw [initAcpi_eq_ok.mpr ⟨_, _, hlookup, hapic⟩, hstate]
  exact congrArg (fun a => Except.ok { s with
    rsdt := 0, xsdt := 0x4100800, madt := m, fadt := 0x4100900, lapicAddr := a }) hlapic

end

end

end Neobird64
