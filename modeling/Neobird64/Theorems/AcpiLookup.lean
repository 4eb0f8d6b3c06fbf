import Neobird64.Theorems.InitAcpi
import Mathlib.Data.List.Find

/-! The lookup of an ACPI table for every root table and every length field, and what it makes of the RSDP of
    ACPI 1.0, which ends before the address of the XSDT. -/

namespace Neobird64
open State

def slotSize (xsdt : Word) : Nat := if xsdt = 0 then 4 else 8

/-- Slot `i` lies inside the declared length of the root table. -/
def Declared (s : State) (rsdt xsdt : Word) (i : Nat) : Prop :=
  sizeofSdt + slotSize xsdt * i + slotSize xsdt ≤ (tableLength s (rootTable rsdt xsdt)).toNat

/-- Slot `i` points to a table with the signature; NULL points to no table. -/
def SlotHas (s : State) (signature : Nat → BitVec 8) (rsdt xsdt : Word) (i : Nat) : Prop :=
  tablePtr s rsdt xsdt i ≠ 0 ∧ HasSignature s signature (tablePtr s rsdt xsdt i)

/-- `find_acpi_table` reads pointers inside the declared length of the root table only, and returns the first table
    with the signature, or NULL when no slot has one. -/
structure LookupOk (s : State) (signature : Nat → BitVec 8) (rsdt xsdt : Word) : Prop where
  inside : ∀ r ∈ pointerReads s signature rsdt xsdt, Inside s (rootTable rsdt xsdt) r
  -- The lists of reads leave nothing out.
  reads : ∀ t, AgreeOn s t (findAcpiTableReads s signature rsdt xsdt) →
    findAcpiTable t signature rsdt xsdt = findAcpiTable s signature rsdt xsdt
  first : ∀ i, Declared s rsdt xsdt i → SlotHas s signature rsdt xsdt i → (∀ j < i, ¬SlotHas s signature rsdt xsdt j) →
    findAcpiTable s signature rsdt xsdt = .ok (tablePtr s rsdt xsdt i)
  absent : (∀ i, Declared s rsdt xsdt i → ¬SlotHas s signature rsdt xsdt i) → findAcpiTable s signature rsdt xsdt = .ok 0

/-- Every NULL in a slot is behind a table with the signature. -/
def NullsBehind (s : State) (signature : Nat → BitVec 8) (rsdt xsdt : Word) : Prop :=
  ∀ i, Declared s rsdt xsdt i → tablePtr s rsdt xsdt i = 0 → ∃ j < i, SlotHas s signature rsdt xsdt j

section
variable {s t : State} {signature : Nat → BitVec 8} {rsdt xsdt rsdp p : Word} {b : Boot} {i : Nat}

/-! ### The slots -/

/-- The count of a table that is shorter than its header wraps to a negative `int`. -/
theorem tableEntries_toNat (length : BitVec 32) {width : Nat} (hwidth : width = 4 ∨ width = 8) :
    (tableEntries length (BitVec.ofNat 64 width)).toNat = (length.toNat - 36) / width := by
  have hlt := length.isLt
  have hsdt : (BitVec.ofNat 64 sizeofSdt).toNat = 36 := rfl
  have hw : (BitVec.ofNat 64 width).toNat = width := by rcases hwidth with rfl | rfl <;> rfl
  rw [tableEntries, toInt, BitVec.toInt_eq_toNat_cond, BitVec.toNat_setWidth, BitVec.toNat_udiv, BitVec.toNat_sub,
    BitVec.toNat_setWidth, hsdt, hw]
  rcases hwidth with rfl | rfl <;> split <;> omega

theorem tableCount_eq : tableCount s rsdt xsdt =
    ((tableLength s (rootTable rsdt xsdt)).toNat - sizeofSdt) / slotSize xsdt := by
  rw [tableCount, rootEntries, rootTable, slotSize]
  split
  · exact tableEntries_toNat _ (Or.inl rfl)
  · exact tableEntries_toNat _ (Or.inr rfl)

theorem declared_iff : Declared s rsdt xsdt i ↔ i < tableCount s rsdt xsdt := by
  rw [Declared, tableCount_eq, sizeofSdt, slotSize]
  split <;> omega

theorem Declared.of_lt {j : Nat} (h : Declared s rsdt xsdt i) (hj : j < i) : Declared s rsdt xsdt j :=
  declared_iff.mpr (hj.trans (declared_iff.mp h))

theorem slotRead_inside (h : Declared s rsdt xsdt i) : Inside s (rootTable rsdt xsdt) (slotRead rsdt xsdt i) := by
  have hlt := (tableLength s (rootTable rsdt xsdt)).isLt
  have hsub : ∀ (root : Word) (n : Nat), n < 2 ^ 64 → (root + BitVec.ofNat 64 n - root).toNat = n := fun root n hn => by
    rw [BitVec.add_comm, BitVec.add_sub_cancel, BitVec.toNat_ofNat, Nat.mod_eq_of_lt hn]
  rw [Declared, slotSize] at h
  rw [Inside, slotRead]
  by_cases hx : xsdt = 0
  · rw [if_pos hx] at h ⊢
    rw [rootTable, if_pos hx] at h hlt ⊢
    rw [hsub _ _ (by omega)]
    exact h
  · rw [if_neg hx] at h ⊢
    rw [rootTable, if_neg hx] at h hlt ⊢
    rw [hsub _ _ (by omega)]
    exact h

theorem mem_of_mem_slotsRead : ∀ {slots : List Nat}, i ∈ slotsRead s signature rsdt xsdt slots → i ∈ slots
  | j :: slots, h => by
    rw [slotsRead] at h
    rcases List.mem_cons.mp h with rfl | h
    · exact List.mem_cons_self
    · split at h
      · cases h
      · exact List.mem_cons_of_mem j (mem_of_mem_slotsRead h)

theorem pointerReads_inside : ∀ r ∈ pointerReads s signature rsdt xsdt, Inside s (rootTable rsdt xsdt) r := by
  intro r hr
  obtain ⟨i, hi, rfl⟩ := List.mem_map.mp hr
  exact slotRead_inside (declared_iff.mpr (List.mem_range.mp (mem_of_mem_slotsRead hi)))

/-! ### What a search depends on -/

theorem AgreeOn.mono {reads reads' : List (Word × Nat)} (h : AgreeOn s t reads) (hsub : reads' ⊆ reads) : AgreeOn s t reads' :=
  fun r hr => h r (hsub hr)

theorem AgreeOn.load64 {reads : List (Word × Nat)} (h : AgreeOn s t reads) (hp : (p, 8) ∈ reads) :
    t.load64 .identity p = s.load64 .identity p :=
  Memory.read64_congr fun x hlo hhi => by
    simp only [phys] at hlo hhi
    obtain ⟨k, rfl⟩ := Nat.exists_eq_add_of_le hlo
    exact h _ hp k (by simp only; omega)

theorem AgreeOn.tablePtr {reads : List (Word × Nat)} (h : AgreeOn s t reads) (hi : slotRead rsdt xsdt i ∈ reads) :
    tablePtr t rsdt xsdt i = tablePtr s rsdt xsdt i := by
  rw [Neobird64.tablePtr, Neobird64.tablePtr]
  by_cases hx : xsdt = 0
  · rw [slotRead, if_pos hx] at hi
    rw [if_pos hx, if_pos hx, h.load32 hi]
  · rw [slotRead, if_neg hx] at hi
    rw [if_neg hx, if_neg hx, h.load64 hi]

/-- The comparison stops at the first difference, and so do its reads. -/
theorem signature_of_agree : ∀ {n k : Nat}, AgreeOn s t (signatureReads s signature p k n) →
    ((∀ j < n, t.loadByte .identity (p + BitVec.ofNat 64 (k + j)) = signature (k + j)) ↔
      ∀ j < n, s.loadByte .identity (p + BitVec.ofNat 64 (k + j)) = signature (k + j))
  | 0, k, _ => iff_of_true nofun nofun
  | n + 1, k, h => by
    have hbyte : t.loadByte .identity (p + BitVec.ofNat 64 k) = s.loadByte .identity (p + BitVec.ofNat 64 k) :=
      h.loadByte List.mem_cons_self
    rw [Nat.forall_lt_succ_left, Nat.forall_lt_succ_left, Nat.add_zero, hbyte]
    by_cases hk : s.loadByte .identity (p + BitVec.ofNat 64 k) = signature k
    · have hrest : AgreeOn s t (signatureReads s signature p (k + 1) n) := h.mono fun r hr => by
        rw [signatureReads, if_pos hk]
        exact List.mem_cons_of_mem _ hr
      refine and_congr_right fun _ => ?_
      simp only [← Nat.add_assoc, Nat.add_right_comm k _ 1]
      exact signature_of_agree hrest
    · exact iff_of_false (fun h => hk h.1) fun h => hk h.1

theorem hasSignature_of_agree (h : AgreeOn s t (signatureReads s signature p 0 4)) :
    HasSignature t signature p ↔ HasSignature s signature p := by
  have hiff := signature_of_agree h
  simp only [Nat.zero_add] at hiff
  exact hiff

theorem searchTables_of_agree : ∀ {slots : List Nat},
    AgreeOn s t ((slotsRead s signature rsdt xsdt slots).map (slotRead rsdt xsdt)) →
    AgreeOn s t ((slotsRead s signature rsdt xsdt slots).flatMap fun i =>
      signatureReads s signature (tablePtr s rsdt xsdt i) 0 4) →
    searchTables t signature (slots.map (tablePtr t rsdt xsdt)) = searchTables s signature (slots.map (tablePtr s rsdt xsdt))
  | [], _, _ => rfl
  | i :: slots, hptr, hsig => by
    have hi : tablePtr t rsdt xsdt i = tablePtr s rsdt xsdt i := hptr.tablePtr List.mem_cons_self
    have hhas := hasSignature_of_agree (hsig.mono fun r hr => List.mem_flatMap.mpr ⟨i, List.mem_cons_self, hr⟩)
    rw [List.map_cons, List.map_cons, searchTables_cons, searchTables_cons, hi]
    by_cases h0 : tablePtr s rsdt xsdt i = 0
    · rw [if_pos h0, if_pos h0]
    by_cases hs : HasSignature s signature (tablePtr s rsdt xsdt i)
    · rw [if_neg h0, if_neg h0, if_pos hs, if_pos (hhas.mpr hs)]
    · have hrest : slotsRead s signature rsdt xsdt (i :: slots) = i :: slotsRead s signature rsdt xsdt slots := by
        rw [slotsRead, if_neg (not_or.mpr ⟨h0, fun h => hs (memcmp_eq_zero.mp h)⟩)]
      rw [hrest] at hptr hsig
      rw [if_neg h0, if_neg h0, if_neg hs, if_neg fun h => hs (hhas.mp h)]
      refine searchTables_of_agree (hptr.mono fun r hr => List.mem_cons_of_mem _ hr) (hsig.mono fun r hr => ?_)
      rw [List.flatMap_cons]
      exact List.mem_append_right _ hr

theorem findAcpiTable_of_agree (h : AgreeOn s t (findAcpiTableReads s signature rsdt xsdt)) :
    findAcpiTable t signature rsdt xsdt = findAcpiTable s signature rsdt xsdt := by
  have hlength : tableLength t (rootTable rsdt xsdt) = tableLength s (rootTable rsdt xsdt) :=
    h.load32 (List.mem_append_left _ List.mem_cons_self)
  have hentries : rootEntries t rsdt xsdt = rootEntries s rsdt xsdt := by
    rw [rootTable] at hlength
    rw [rootEntries, rootEntries]
    split at hlength
    · rw [if_pos ‹_›, if_pos ‹_›, hlength]
    · rw [if_neg ‹_›, if_neg ‹_›, hlength]
  rw [findAcpiTable, findAcpiTable, hentries, searchTables_of_agree]
  · exact h.mono fun r hr => List.mem_append_left _ (List.mem_cons_of_mem _ hr)
  · exact h.mono fun r hr => List.mem_append_right _ hr

/-! ### One search -/

theorem findAcpiTable_null (hroot : rootTable rsdt xsdt ≠ 0) (hi : Declared s rsdt xsdt i) (hnull : tablePtr s rsdt xsdt i = 0)
    (hfirst : ∀ j < i, ¬SlotHas s signature rsdt xsdt j) : findAcpiTable s signature rsdt xsdt = .error .fault := by
  classical
  -- The first NULL before which no table has the signature.
  have hex : ∃ i, tablePtr s rsdt xsdt i = 0 ∧ ∀ j < i, ¬SlotHas s signature rsdt xsdt j := ⟨i, hnull, hfirst⟩
  obtain ⟨hzero, hnone⟩ := Nat.find_spec hex
  have hle : Nat.find hex ≤ i := Nat.find_min' hex ⟨hnull, hfirst⟩
  have hpos : ∀ j < Nat.find hex, tablePtr s rsdt xsdt j ≠ 0 := fun j hj h0 =>
    Nat.find_min hex hj ⟨h0, fun k hk => hnone k (hk.trans hj)⟩
  have hstop : stopAt s signature (tablePtrs s rsdt xsdt) = some 0 := by
    rw [← hzero]
    exact stopAt_tablePtrs ((Nat.lt_of_le_of_lt hle (declared_iff.mp hi))) (Or.inl hzero)
      fun j hj => not_or.mpr ⟨hpos j hj, fun h => hnone j hj ⟨hpos j hj, h⟩⟩
  rw [findAcpiTable_eq hroot, hstop]
  rfl

theorem LookupOk.returns (h : LookupOk s signature rsdt xsdt) : ∃ p, findAcpiTable s signature rsdt xsdt = .ok p := by
  classical
  by_cases hex : ∃ i, Declared s rsdt xsdt i ∧ SlotHas s signature rsdt xsdt i
  · obtain ⟨hi, hhas⟩ := Nat.find_spec hex
    exact ⟨_, h.first _ hi hhas fun j hj hj' => Nat.find_min hex hj ⟨hi.of_lt hj, hj'⟩⟩
  · exact ⟨0, h.absent fun i hi hhas => hex ⟨i, hi, hhas⟩⟩

/-- The search is right exactly when there is a root table and it does not get to a NULL, through which it reads. -/
theorem lookupOk_iff (s : State) (signature : Nat → BitVec 8) (rsdt xsdt : Word) : LookupOk s signature rsdt xsdt ↔
    rootTable rsdt xsdt ≠ 0 ∧ NullsBehind s signature rsdt xsdt := by
  constructor
  · intro h
    obtain ⟨p, hp⟩ := h.returns
    have hroot : rootTable rsdt xsdt ≠ 0 := fun h0 => by
      rw [findAcpiTable_noRoot h0] at hp
      cases hp
    refine ⟨hroot, fun i hi hnull => ?_⟩
    by_contra hnone
    rw [findAcpiTable_null hroot hi hnull fun j hj hhas => hnone ⟨j, hj, hhas⟩] at hp
    cases hp
  · rintro ⟨hroot, hnulls⟩
    refine ⟨pointerReads_inside, fun t => findAcpiTable_of_agree, fun i hi hhas hfirst => ?_, fun hnone => ?_⟩
    · have hpos : ∀ j ≤ i, tablePtr s rsdt xsdt j ≠ 0 := by
        intro j hj h0
        rcases Nat.lt_or_eq_of_le hj with hlt | rfl
        · obtain ⟨k, hk, hhas'⟩ := hnulls j (hi.of_lt hlt) h0
          exact hfirst k (hk.trans hlt) hhas'
        · exact hhas.1 h0
      exact findAcpiTable_of_first hroot (declared_iff.mp hi) hhas.2 hpos
        fun j hj hsig => hfirst j hj ⟨hpos j hj.le, hsig⟩
    · have hstop : stopAt s signature (tablePtrs s rsdt xsdt) = none := by
        rw [stopAt, List.find?_eq_none]
        intro p hp
        obtain ⟨i, hi, rfl⟩ := List.mem_map.mp hp
        have hdeclared := declared_iff.mpr (List.mem_range.mp hi)
        have hpos : tablePtr s rsdt xsdt i ≠ 0 := fun h0 => by
          obtain ⟨j, hj, hhas⟩ := hnulls i hdeclared h0
          exact hnone j (hdeclared.of_lt hj) hhas
        simpa using ⟨hpos, fun hsig => hnone i hdeclared ⟨hpos, hsig⟩⟩
      rw [findAcpiTable_eq hroot, hstop]
      rfl

/-! ### Two memories -/

/-- The root tables, the MADT and the FADT that `init_acpi` finds. -/
def acpiTables (b : Boot) (s : State) : Except Halt (Word × Word × Word × Word) :=
  (lookupTables b s).map fun s => (s.rsdt, s.xsdt, s.madt, s.fadt)

/-- The lookups in two memories use the RSDT and find the same tables. -/
structure SameLookup (b : Boot) (rsdp : Word) (s t : State) : Prop where
  xsdt : parseXsdt s rsdp = 0 ∧ parseXsdt t rsdp = 0
  rsdt : parseRsdt t rsdp = parseRsdt s rsdp
  madt : findAcpiTable t (signatureBytes "APIC") (parseRsdt t rsdp) (parseXsdt t rsdp) =
    findAcpiTable s (signatureBytes "APIC") (parseRsdt s rsdp) (parseXsdt s rsdp)
  tables : acpiTables b t = acpiTables b s

def sizeofRsdp10 : Word := 20

/-- None of the `n` bytes from `p` on is one of the 16 bytes of `rsdp_t` that an RSDP of ACPI 1.0 does not have. -/
def NotBehind (rsdp p : Word) (n : Nat) : Prop :=
  p.toNat + n ≤ (rsdp + sizeofRsdp10).toNat ∨ (rsdp + sizeofRsdp10).toNat + 16 ≤ p.toNat

/-- The bytes where `rsdp_t` has `xsdtaddress` are 0. -/
def NoXsdt (s : State) (rsdp : Word) : Prop := s.load64 .identity (rsdp + offsetofXsdtaddress) = 0

/-- The first pointer of the RSDT that is NULL or leads to a table with the signature. -/
def rsdtStop (s : State) (rsdp : Word) (text : String) : Option Word :=
  stopAt s (signatureBytes text) (tablePtrs s (parseRsdt s rsdp) 0)

/-- The RSDT, if there is one, leads to the same MADT and FADT in both memories. -/
def SameRsdt (rsdp : Word) (s t : State) : Prop :=
  parseRsdt s rsdp = 0 ∨ rsdtStop t rsdp "APIC" = rsdtStop s rsdp "APIC" ∧
    ∀ p, rsdtStop s rsdp "APIC" = some p → p ≠ 0 → rsdtStop t rsdp "FACP" = rsdtStop s rsdp "FACP"

/-- The reads of the searches for the MADT and for the FADT through the RSDT. -/
def rsdtReads (s : State) (rsdp : Word) : List (Word × Nat) :=
  findAcpiTableReads s (signatureBytes "APIC") (parseRsdt s rsdp) 0 ++
    findAcpiTableReads s (signatureBytes "FACP") (parseRsdt s rsdp) 0

instance (rsdp p : Word) (n : Nat) : Decidable (NotBehind rsdp p n) := inferInstanceAs (Decidable (_ ∨ _))

instance (s : State) (rsdp : Word) : Decidable (NoXsdt s rsdp) := inferInstanceAs (Decidable (_ = _))

/-- The memories agree outside of the bytes behind the RSDP. -/
def SameButBehind (rsdp : Word) (m m' : Memory) : Prop :=
  ∀ a, a < (rsdp + sizeofRsdp10).toNat ∨ (rsdp + sizeofRsdp10).toNat + 16 ≤ a → m' a = m a

theorem acpiTables_eq (hb : b.rsdp = some rsdp) : acpiTables b s =
    (findAcpiTable s (signatureBytes "APIC") (parseRsdt s rsdp) (parseXsdt s rsdp)).bind fun madt =>
      if madt = 0 then .error (.panic "MADT table not found, hanging")
      else (findAcpiTable s (signatureBytes "FACP") (parseRsdt s rsdp) (parseXsdt s rsdp)).bind fun fadt =>
        if fadt = 0 then .error (.panic "FADT table not found, hanging")
        else .ok (parseRsdt s rsdp, parseXsdt s rsdp, madt, fadt) := by
  simp only [acpiTables, lookupTables, hb]
  generalize findAcpiTable s (signatureBytes "APIC") (parseRsdt s rsdp) (parseXsdt s rsdp) = lookup
  generalize findAcpiTable s (signatureBytes "FACP") (parseRsdt s rsdp) (parseXsdt s rsdp) = lookup'
  generalize parseRsdt s rsdp = rsdt
  generalize parseXsdt s rsdp = xsdt
  cases lookup with
  | error e => rfl
  | ok madt =>
    by_cases hm : madt = 0
    · simp only [Loop.ok_bind, Except.bind, if_pos hm]
      rfl
    · simp only [Loop.ok_bind, Except.bind, if_neg hm]
      cases lookup' with
      | error e => rfl
      | ok fadt =>
        by_cases hf : fadt = 0
        · simp only [Loop.ok_bind, if_pos hf]
          rfl
        · simp only [Loop.ok_bind, if_neg hf]
          rfl

/-- The last lookup of `init_acpi`. -/
def lastLookup (rsdt xsdt madt : Word) (lookup : Except Halt Word) : Except Halt (Word × Word × Word × Word) :=
  lookup.bind fun fadt => if fadt = 0 then .error (.panic "FADT table not found, hanging") else .ok (rsdt, xsdt, madt, fadt)

theorem lookupResult_inj {x y : Option Word} : lookupResult x = lookupResult y ↔ x = y := by
  have hinv : ∀ x, (match lookupResult x with
      | .error _ => some 0
      | .ok p => if p = 0 then none else some p) = x := by
    intro x
    cases x with
    | none => rfl
    | some p =>
      by_cases hp : p = 0
      · rw [lookupResult, if_pos hp, hp]
      · rw [lookupResult, if_neg hp]
        exact if_neg hp
  refine ⟨fun h => ?_, congrArg lookupResult⟩
  rw [← hinv x, ← hinv y, h]

theorem lastLookup_inj {madt : Word} {x y : Option Word} :
    lastLookup rsdt xsdt madt (lookupResult x) = lastLookup rsdt xsdt madt (lookupResult y) ↔ x = y := by
  have hinv : ∀ x, (match lastLookup rsdt xsdt madt (lookupResult x) with
      | .error .fault => some 0
      | .error _ => none
      | .ok tables => some tables.2.2.2) = x := by
    intro x
    cases x with
    | none => rfl
    | some p =>
      by_cases hp : p = 0
      · rw [lookupResult, if_pos hp, hp]
        rfl
      · rw [lookupResult, if_neg hp, lastLookup, Except.bind, if_neg hp]
  refine ⟨fun h => ?_, congrArg fun x => lastLookup rsdt xsdt madt (lookupResult x)⟩
  rw [← hinv x, ← hinv y, h]

theorem findAcpiTable_rsdt (hroot : rsdt ≠ 0) :
    findAcpiTable s signature rsdt 0 = lookupResult (stopAt s signature (tablePtrs s rsdt 0)) :=
  findAcpiTable_eq (by rwa [rootTable, if_pos rfl])

/-- With no XSDT in sight, the lookups agree exactly when the RSDT leads to the same tables. -/
theorem sameTables_iff (hb : b.rsdp = some rsdp) (hxs : parseXsdt s rsdp = 0) (hxt : parseXsdt t rsdp = 0)
    (hrsdt : parseRsdt t rsdp = parseRsdt s rsdp) : SameLookup b rsdp s t ↔ SameRsdt rsdp s t := by
  have hmadt : SameLookup b rsdp s t ↔
      findAcpiTable t (signatureBytes "APIC") (parseRsdt s rsdp) 0 = findAcpiTable s (signatureBytes "APIC") (parseRsdt s rsdp) 0 ∧
        acpiTables b t = acpiTables b s := by
    constructor
    · rintro ⟨-, -, hm, htables⟩
      rw [hxs, hxt, hrsdt] at hm
      exact ⟨hm, htables⟩
    · rintro ⟨hm, htables⟩
      exact ⟨⟨hxs, hxt⟩, hrsdt, by rw [hxs, hxt, hrsdt, hm], htables⟩
  rw [hmadt, acpiTables_eq hb, acpiTables_eq hb, hxs, hxt, SameRsdt, rsdtStop, rsdtStop, rsdtStop, rsdtStop, hrsdt]
  generalize parseRsdt s rsdp = rsdt
  by_cases hroot : rsdt = 0
  · have hzero : rootTable rsdt 0 = 0 := by rw [rootTable, if_pos rfl, hroot]
    rw [findAcpiTable_noRoot hzero, findAcpiTable_noRoot hzero, findAcpiTable_noRoot hzero, findAcpiTable_noRoot hzero]
    exact iff_of_true ⟨rfl, rfl⟩ (Or.inl hroot)
  rw [findAcpiTable_rsdt hroot, findAcpiTable_rsdt hroot, findAcpiTable_rsdt hroot, findAcpiTable_rsdt hroot, lookupResult_inj,
    or_iff_right hroot]
  refine and_congr_right fun hm => ?_
  rw [hm]
  cases stopAt s (signatureBytes "APIC") (tablePtrs s rsdt 0) with
  | none =>
    rw [lookupResult, Except.bind, Except.bind, if_pos rfl, if_pos rfl]
    exact iff_of_true rfl fun q hq _ => absurd hq.symm (Option.some_ne_none q)
  | some p =>
    by_cases hp : p = 0
    · rw [lookupResult, if_pos hp, Except.bind, Except.bind]
      exact iff_of_true rfl fun q hq hq0 => absurd (Option.some.inj hq ▸ hp) hq0
    · rw [lookupResult, if_neg hp, Except.bind, Except.bind, if_neg hp, if_neg hp]
      constructor
      · intro hf q _ _
        exact lastLookup_inj.mp hf
      · intro hf
        exact lastLookup_inj.mpr (hf p rfl hp)

/-- Bytes behind the RSDP that no search through the RSDT reads do not change what it leads to. -/
theorem SameRsdt.of_notBehind {m : Memory} (hagree : SameButBehind rsdp s.mem m)
    (h : ∀ r ∈ rsdtReads s rsdp, NotBehind rsdp r.1 r.2) (hrsdt : parseRsdt { s with mem := m } rsdp = parseRsdt s rsdp) :
    SameRsdt rsdp s { s with mem := m } := by
  have hreads : AgreeOn s { s with mem := m } (rsdtReads s rsdp) := fun r hr k hk =>
    hagree _ (by rcases h r hr with h | h <;> omega)
  rw [SameRsdt, or_iff_not_imp_left]
  intro hroot
  have hstop : ∀ text, findAcpiTable { s with mem := m } (signatureBytes text) (parseRsdt s rsdp) 0 =
      findAcpiTable s (signatureBytes text) (parseRsdt s rsdp) 0 →
      rsdtStop { s with mem := m } rsdp text = rsdtStop s rsdp text := fun text hfind => by
    rw [findAcpiTable_rsdt hroot, findAcpiTable_rsdt hroot, lookupResult_inj] at hfind
    rw [rsdtStop, rsdtStop, hrsdt, hfind]
  exact ⟨hstop _ (findAcpiTable_of_agree (hreads.mono fun r hr => List.mem_append_left _ hr)),
    fun _ _ _ => hstop _ (findAcpiTable_of_agree (hreads.mono fun r hr => List.mem_append_right _ hr))⟩

theorem SameButBehind.parseRsdt {m : Memory} (hagree : SameButBehind rsdp s.mem m) :
    parseRsdt { s with mem := m } rsdp = parseRsdt s rsdp := by
  have h16 : offsetofRsdtaddress.toNat = 16 := rfl
  have h20 : sizeofRsdp10.toNat = 20 := rfl
  have hread : AgreeOn s { s with mem := m } [(rsdp + offsetofRsdtaddress, 4)] := fun r hr k hk => by
    obtain rfl := List.mem_singleton.mp hr
    refine hagree _ ?_
    rw [BitVec.toNat_add, BitVec.toNat_add, h16, h20]
    simp only at hk
    omega
  rw [Neobird64.parseRsdt, Neobird64.parseRsdt, hread.load32 List.mem_cons_self]

theorem parseXsdt_eq_zero_iff (rsdp : Word) (hoff : s.hhdmoffset = 0) : parseXsdt s rsdp = 0 ↔ NoXsdt s rsdp := by
  have hadd : ∀ x : Word, x + 0 = x := fun x => BitVec.add_zero x
  rw [parseXsdt, hoff, hadd, NoXsdt]
  split
  · exact iff_of_true rfl ‹_›
  · exact Iff.rfl

/-- The lookup uses the RSDT only, and the same tables, exactly when the bytes that an RSDP of ACPI 1.0 does not have spell no
    address of an XSDT and the RSDT leads to the same tables; it does when these bytes are not its own. The revision
    of the RSDP is not read. -/
theorem sameLookup_iff {m : Memory} (hb : b.rsdp = some rsdp) (hoff : s.hhdmoffset = 0)
    (hagree : SameButBehind rsdp s.mem m) :
    (SameLookup b rsdp s { s with mem := m } ↔
      NoXsdt s rsdp ∧ NoXsdt { s with mem := m } rsdp ∧ SameRsdt rsdp s { s with mem := m }) ∧
    ((∀ r ∈ rsdtReads s rsdp, NotBehind rsdp r.1 r.2) → SameRsdt rsdp s { s with mem := m }) := by
  have hs := parseXsdt_eq_zero_iff rsdp hoff
  have ht := parseXsdt_eq_zero_iff (s := { s with mem := m }) rsdp hoff
  refine ⟨?_, fun h => SameRsdt.of_notBehind hagree h hagree.parseRsdt⟩
  constructor
  · intro h
    exact ⟨hs.mp h.xsdt.1, ht.mp h.xsdt.2, (sameTables_iff hb h.xsdt.1 h.xsdt.2 hagree.parseRsdt).mp h⟩
  · rintro ⟨hxs, hxt, h⟩
    exact (sameTables_iff hb (hs.mpr hxs) (ht.mpr hxt) hagree.parseRsdt).mpr h

end

/-! ### An RSDT with a NULL pointer -/

/-- An RSDT with two slots at 0x2000, NULL and the MADT. -/
def nullSlotMemory : Memory :=
  ((Memory.writeLE (fun _ => 0) 0x2004 4 44).writeLE 0x2028 4 0x3000).writeLE 0x3000 4 0x43495041

theorem null_slot_faults : SlotHas { mem := nullSlotMemory } (signatureBytes "APIC") 0x2000 0 1 ∧
    findAcpiTable { mem := nullSlotMemory } (signatureBytes "APIC") 0x2000 0 = .error .fault ∧
    ¬LookupOk { mem := nullSlotMemory } (signatureBytes "APIC") 0x2000 0 := by
  have hfault : findAcpiTable { mem := nullSlotMemory } (signatureBytes "APIC") 0x2000 0 = .error .fault := by decide +kernel
  refine ⟨⟨by decide +kernel, by decide +kernel⟩, hfault, fun h => ?_⟩
  obtain ⟨p, hp⟩ := h.returns
  rw [hfault] at hp
  cases hp

/-! ### An RSDP of ACPI 1.0 -/

/-- An RSDP of revision 0 at 0x1000 with the RSDT, the MADT and the FADT. -/
def rsdp10Tables : Memory :=
  let zero : Memory := fun _ => 0
  let rsdp := zero.writeLE 0x1010 4 0x2000
  let rsdt := ((rsdp.writeLE 0x2004 4 44).writeLE 0x2024 4 0x3000).writeLE 0x2028 4 0x4000
  (rsdt.writeLE 0x3000 4 0x43495041).writeLE 0x4000 4 0x50434146

/-- The same with bytes of something else behind the RSDP, from where `rsdp_t` has `xsdtaddress` on. -/
def rsdp10Memory (behind : Word) (end32 : Nat) : Memory := (rsdp10Tables.write64 0x1018 behind).writeLE 0x1020 4 end32

theorem sameButBehind_rsdp10 (behind : Word) (end32 : Nat) :
    SameButBehind 0x1000 (rsdp10Memory 0 0) (rsdp10Memory behind end32) := by
  intro a ha
  have hlo : ((0x1000 : Word) + sizeofRsdp10).toNat = 0x1014 := rfl
  have htables : ∀ behind end32, rsdp10Memory behind end32 a = rsdp10Tables a := fun behind end32 =>
    (Memory.writeLE_of_outside (by omega)).trans (Memory.write64_of_outside (by omega))
  rw [htables, htables]

/-- The memories differ in the last four bytes of an `rsdp_t`, and both lookups find the tables. -/
theorem sameLookup_iff_sample : rsdp10Memory 0 0x12345678 0x1020 ≠ rsdp10Memory 0 0 0x1020 ∧
    acpiTables (sampleBoot acpiMap) { mem := rsdp10Memory 0 0 } = .ok (0x2000, 0, 0x3000, 0x4000) ∧
    SameLookup (sampleBoot acpiMap) 0x1000 { mem := rsdp10Memory 0 0 } { mem := rsdp10Memory 0 0x12345678 } := by
  have hiff := sameLookup_iff (b := sampleBoot acpiMap) (s := { mem := rsdp10Memory 0 0 }) rfl rfl
    (sameButBehind_rsdp10 0 0x12345678)
  refine ⟨by decide +kernel, ?_, hiff.1.mpr ⟨by decide +kernel, by decide +kernel, hiff.2 (by decide +kernel)⟩⟩
  rw [acpiTables_eq rfl]
  decide +kernel

/-- Bytes that are not part of the RSDP are taken for the address of an XSDT, and the MADT is not found. -/
theorem rsdp10_behind_read : rsdp10Memory 0 0 0x100f = 0 ∧ SameButBehind 0x1000 (rsdp10Memory 0 0) (rsdp10Memory 0x5000 0) ∧
    (∀ r ∈ rsdtReads { mem := rsdp10Memory 0 0 } 0x1000, NotBehind 0x1000 r.1 r.2) ∧
    acpiTables (sampleBoot acpiMap) { mem := rsdp10Memory 0 0 } = .ok (0x2000, 0, 0x3000, 0x4000) ∧
    acpiTables (sampleBoot acpiMap) { mem := rsdp10Memory 0x5000 0 } = .error (.panic "MADT table not found, hanging") ∧
    ¬SameLookup (sampleBoot acpiMap) 0x1000 { mem := rsdp10Memory 0 0 } { mem := rsdp10Memory 0x5000 0 } := by
  have h0 : acpiTables (sampleBoot acpiMap) { mem := rsdp10Memory 0 0 } = .ok (0x2000, 0, 0x3000, 0x4000) := by
    rw [acpiTables_eq rfl]
    decide +kernel
  have h1 : acpiTables (sampleBoot acpiMap) { mem := rsdp10Memory 0x5000 0 } =
      .error (.panic "MADT table not found, hanging") := by
    rw [acpiTables_eq rfl]
    decide +kernel
  refine ⟨by decide +kernel, sameButBehind_rsdp10 0x5000 0, by decide +kernel, h0, h1, fun h => ?_⟩
  have htables := h.tables
  rw [h0, h1] at htables
  cases htables

end Neobird64
