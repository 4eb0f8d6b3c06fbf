import Neobird64.Theorems.MadtWalk
import Neobird64.Lib.Collect

/-! The bytes that the walk over the MADT and `find_gsi` read. The loop tests that a byte remains, not that the
    record with its fields does, so a record that is cut off by the end of the table is read beyond it. -/

namespace Neobird64
open State

/-- The bytes from the pointer on lie in the declared extent of the table. -/
def Inside (s : State) (madt : Word) (r : Word × Nat) : Prop := (r.1 - madt).toNat + r.2 ≤ (tableLength s madt).toNat

/-- `get_madt_tables` and, for every interrupt, `find_gsi` read inside the table only. -/
structure ReadsInside (s : State) (madt : Word) : Prop where
  walk : ∃ reads, madtReads s madt = .ok reads ∧ ∀ r ∈ reads, Inside s madt r
  scan : ∃ g, getMadtTables s madt {} = .ok g ∧ ∀ pin, ∀ r ∈ findGsiReads s g.icsArray pin, Inside s madt r

def recordType (s : State) (madt : Word) (off : Nat) : BitVec 8 := s.loadByte .identity (tablePointer madt off)

/-- The number of bytes of a record that the walk needs. -/
def walkSize (type : BitVec 8) : Nat := if type = 0 ∨ type = 1 then 8 else 2

/-- The interrupt source overrides that `find_gsi` gets to: those among the first 64 records that have an entry. -/
def scannedOverrides (s : State) (madt : Word) : List Nat :=
  (((tableRecords s madt).filter fun off => writesIcs s (tablePointer madt off)).take 64).filter fun off =>
    recordType s madt off = 2

/-- `iso->source` of the record at offset `off`. -/
def overrideSource (s : State) (madt : Word) (off : Nat) : BitVec 32 :=
  (s.loadByte .identity (tablePointer madt off + offsetofSource)).setWidth 32

/-- The records that the bytes of the table spell fit into it, as far as their fields are read. -/
structure RecordsFit (s : State) (madt : Word) : Prop where
  records : ∀ off ∈ tableRecords s madt, off + walkSize (recordType s madt off) ≤ (tableLength s madt).toNat
  sources : ∀ off ∈ scannedOverrides s madt, off + 4 ≤ (tableLength s madt).toNat
  gsis : ∀ pin off, ((scannedOverrides s madt).find? fun off => overrideSource s madt off = pin) = some off →
    off + 8 ≤ (tableLength s madt).toNat

section
variable {s t : State} {madt : Word} {off k n : Nat} {pin : BitVec 32} {g : MadtTables} {reads : List (Word × Nat)}

theorem inside_iff (h : off + k < 2 ^ 64) :
    Inside s madt (tablePointer madt off + BitVec.ofNat 64 k, n) ↔ off + k + n ≤ (tableLength s madt).toNat := by
  have hsub : (tablePointer madt off + BitVec.ofNat 64 k - madt).toNat = off + k := by
    rw [← tablePointer_add, tablePointer, BitVec.add_comm, BitVec.add_sub_cancel, BitVec.toNat_ofNat, Nat.mod_eq_of_lt h]
  rw [Inside, hsub]

/-! ### The lists of reads -/

/-- The memories agree on the bytes of the reads. -/
def AgreeOn (s t : State) (reads : List (Word × Nat)) : Prop :=
  ∀ r ∈ reads, ∀ k < r.2, t.mem (r.1.toNat + k) = s.mem (r.1.toNat + k)

theorem AgreeOn.loadByte (h : AgreeOn s t reads) {p : Word} (hp : (p, 1) ∈ reads) :
    t.loadByte .identity p = s.loadByte .identity p := h _ hp 0 Nat.one_pos

theorem AgreeOn.load32 (h : AgreeOn s t reads) {p : Word} (hp : (p, 4) ∈ reads) :
    t.load32 .identity p = s.load32 .identity p :=
  Memory.read32_congr fun x hlo hhi => by
    simp only [phys] at hlo hhi
    obtain ⟨k, rfl⟩ := Nat.exists_eq_add_of_le hlo
    exact h _ hp k (by simp only; omega)

/-- The body of the loop reads no byte of memory but those of the list. -/
theorem listRecord_of_agree {cur : Word} (h : AgreeOn s t (recordReads s cur)) : listRecord t g cur = listRecord s g cur := by
  have htype : t.loadByte .identity cur = s.loadByte .identity cur := h.loadByte List.mem_cons_self
  by_cases h0 : s.loadByte .identity cur = 0
  · have hflags : t.load32 .identity (cur + offsetofFlags) = s.load32 .identity (cur + offsetofFlags) :=
      h.load32 (by simp only [recordReads, if_pos h0]; split <;> simp)
    by_cases hf : s.load32 .identity (cur + offsetofFlags) = 0
    · simp only [listRecord, htype, if_pos h0, hflags, if_pos hf]
    · have hid : t.loadByte .identity (cur + offsetofApicID) = s.loadByte .identity (cur + offsetofApicID) :=
        h.loadByte (by simp only [recordReads, if_pos h0, if_neg hf]; simp)
      simp only [listRecord, htype, if_pos h0, hflags, if_neg hf, hid]
  by_cases h1 : s.loadByte .identity cur = 1
  · have haddr : t.load32 .identity (cur + offsetofIoapicaddr) = s.load32 .identity (cur + offsetofIoapicaddr) :=
      h.load32 (by simp only [recordReads, if_neg h0, if_pos h1]; simp)
    simp only [listRecord, htype, if_neg h0, if_pos h1, haddr]
  · simp only [listRecord, htype, if_neg h0, if_neg h1]

def gsiOf (s : State) (pin : BitVec 32) (e : MadtIcs) : Option (BitVec 32) :=
  if e.type = 2 ∧ (s.loadByte .identity (e.address + offsetofSource)).setWidth 32 = pin then
    some (s.load32 .identity (e.address + offsetofGsi))
  else none

theorem findSome?_of_agree : ∀ {slots : List MadtIcs}, AgreeOn s t (gsiReads s pin slots) →
    slots.findSome? (gsiOf t pin) = slots.findSome? (gsiOf s pin)
  | [], _ => rfl
  | e :: slots, h => by
    rw [List.findSome?_cons, List.findSome?_cons]
    by_cases h2 : e.type = 2
    · rw [gsiReads, if_pos h2] at h
      have hsource : t.loadByte .identity (e.address + offsetofSource) = s.loadByte .identity (e.address + offsetofSource) :=
        h.loadByte (by simp only; split <;> exact List.mem_cons_self)
      by_cases hpin : (s.loadByte .identity (e.address + offsetofSource)).setWidth 32 = pin
      · rw [if_pos hpin] at h
        have hgsi : t.load32 .identity (e.address + offsetofGsi) = s.load32 .identity (e.address + offsetofGsi) :=
          h.load32 (List.mem_cons_of_mem _ List.mem_cons_self)
        rw [gsiOf, gsiOf, hsource, hgsi, if_pos ⟨h2, hpin⟩]
      · rw [if_neg hpin] at h
        have hno : ¬(e.type = 2 ∧ (s.loadByte .identity (e.address + offsetofSource)).setWidth 32 = pin) := fun h => hpin h.2
        rw [gsiOf, gsiOf, hsource, if_neg hno, if_neg hno,
          findSome?_of_agree fun r hr => h r (List.mem_cons_of_mem _ hr)]
    · rw [gsiReads, if_neg h2] at h
      rw [gsiOf, gsiOf, if_neg fun h => h2 h.1, if_neg fun h => h2 h.1, findSome?_of_agree h]

theorem findGsi_of_agree {icsArray : Nat → MadtIcs} (h : AgreeOn s t (findGsiReads s icsArray pin)) :
    findGsi t icsArray pin = findGsi s icsArray pin := by
  have hmap : ∀ u : State, findGsi u icsArray pin = (((List.range 64).map icsArray).findSome? (gsiOf u pin)).getD pin :=
    fun u => by rw [List.findSome?_map]; rfl
  rw [hmap, hmap, findSome?_of_agree h]

/-! ### The walk -/

theorem recordReads_inside_iff (h : off < 2 ^ 32) : (∀ r ∈ recordReads s (tablePointer madt off), Inside s madt r) ↔
    off + walkSize (recordType s madt off) ≤ (tableLength s madt).toNat := by
  have hzero : tablePointer madt off = tablePointer madt off + BitVec.ofNat 64 0 := (BitVec.add_zero _).symm
  have h0 : Inside s madt (tablePointer madt off, 1) ↔ off + 1 ≤ (tableLength s madt).toNat := by
    rw [hzero, inside_iff (by omega), Nat.add_zero]
  have h1 : Inside s madt (tablePointer madt off + offsetofRecordLength, 1) ↔ off + 1 + 1 ≤ (tableLength s madt).toNat :=
    inside_iff (k := 1) (by omega)
  have h3 : Inside s madt (tablePointer madt off + offsetofApicID, 1) ↔ off + 3 + 1 ≤ (tableLength s madt).toNat :=
    inside_iff (k := 3) (by omega)
  have h4 : Inside s madt (tablePointer madt off + offsetofFlags, 4) ↔ off + 4 + 4 ≤ (tableLength s madt).toNat :=
    inside_iff (k := 4) (by omega)
  have h4' : Inside s madt (tablePointer madt off + offsetofIoapicaddr, 4) ↔ off + 4 + 4 ≤ (tableLength s madt).toNat :=
    inside_iff (k := 4) (by omega)
  rw [recordReads, recordType, walkSize, List.forall_mem_cons, List.forall_mem_cons, h0, h1]
  by_cases ht0 : s.loadByte .identity (tablePointer madt off) = 0
  · rw [if_pos ht0, if_pos (Or.inl ht0)]
    split
    · rw [List.forall_mem_singleton, h4]
      omega
    · rw [List.forall_mem_cons, List.forall_mem_singleton, h4, h3]
      omega
  by_cases ht1 : s.loadByte .identity (tablePointer madt off) = 1
  · rw [if_neg ht0, if_pos ht1, if_pos (Or.inr ht1), List.forall_mem_singleton, h4']
    omega
  · have hnot : ¬(s.loadByte .identity (tablePointer madt off) = 0 ∨ s.loadByte .identity (tablePointer madt off) = 1) :=
      fun h => h.elim ht0 ht1
    rw [if_neg ht0, if_neg ht1, if_neg hnot]
    simp only [List.not_mem_nil, IsEmpty.forall_iff, implies_true, and_true]
    omega

theorem madtReads_eq (h : ∀ off ∈ tableRecords s madt, recordSize s madt off ≠ 0) :
    madtReads s madt = .ok ((tableRecords s madt).flatMap fun off => recordReads s (tablePointer madt off)) := by
  rw [madtReads, forRecords_ok h, List.foldl_append_eq_append, List.nil_append, List.map_map, List.flatMap]
  rfl

/-! ### The entries of the array -/

def slot (e : MadtIcs) : Word × BitVec 8 := (e.address, e.type)

/-- What the body of the loop does to the array, as far as `find_gsi` sees it. -/
theorem listRecord_slots (g : MadtTables) (cur : Word) :
    (listRecord s g cur).i = (if writesIcs s cur then g.i + 1 else g.i) ∧
    ∀ j, slot ((listRecord s g cur).icsArray j) =
      if writesIcs s cur ∧ j = g.i then (cur, s.loadByte .identity cur) else slot (g.icsArray j) := by
  have hput : ∀ {e : MadtIcs} {p : Word × BitVec 8}, slot e = p → ∀ j,
      slot (Function.update g.icsArray g.i e j) = if True ∧ j = g.i then p else slot (g.icsArray j) := fun he j => by
    by_cases hj : j = g.i
    · rw [hj, Function.update_self, if_pos ⟨trivial, rfl⟩, he]
    · rw [Function.update_of_ne hj, if_neg fun h => hj h.2]
  by_cases h0 : s.loadByte .identity cur = 0
  · by_cases hflags : s.load32 .identity (cur + offsetofFlags) = 0
    · have hno : writesIcs s cur = false := by simp [writesIcs, h0, hflags]
      simp only [listRecord, if_pos h0, if_pos hflags, hno]
      simp
    · have hyes : writesIcs s cur = true := by
        have hne : s.load32 .identity (cur + offsetofFlags) ≠ 0#32 := hflags
        simp [writesIcs, h0, hne]
      simp only [listRecord, if_pos h0, if_neg hflags, hyes]
      exact ⟨rfl, hput rfl⟩
  by_cases h1 : s.loadByte .identity cur = 1
  · have hyes : writesIcs s cur = true := by simp [writesIcs, h1]
    simp only [listRecord, if_neg h0, if_pos h1, hyes]
    exact ⟨rfl, hput rfl⟩
  by_cases h2 : s.loadByte .identity cur = 2
  · have hyes : writesIcs s cur = true := by simp [writesIcs, h2]
    simp only [listRecord, if_neg h0, if_neg h1, if_pos h2, hyes]
    exact ⟨rfl, hput rfl⟩
  · have hno : writesIcs s cur = false := by simp only [writesIcs, h0, h1, h2]; rfl
    simp only [listRecord, if_neg h0, if_neg h1, if_neg h2, hno]
    simp

theorem collects_listRecord : Collects (listRecord s) (fun g j => slot (g.icsArray j)) MadtTables.i (writesIcs s)
    fun _ cur => (cur, s.loadByte .identity cur) where
  next_step g cur := (listRecord_slots g cur).1
  array_step g cur := (listRecord_slots g cur).2

/-! ### The scan -/

theorem filterMap_range {α β : Type} {f : α → Option β} : ∀ {l : List α} {n : Nat},
    ((List.range n).filterMap fun i => (l[i]?).bind f) = (l.take n).filterMap f
  | [], n => by simp
  | x :: l, 0 => rfl
  | x :: l, n + 1 => by
    have ih := filterMap_range (f := f) (l := l) (n := n)
    rw [List.range_succ_eq_map, List.filterMap_cons, List.filterMap_map, List.take_succ_cons, List.filterMap_cons, ← ih]
    rfl

/-- The reads of `find_gsi` from the overrides at the given addresses. -/
def sourceReads (s : State) (pin : BitVec 32) : List Word → List (Word × Nat)
  | [] => []
  | iso :: l =>
    if (s.loadByte .identity (iso + offsetofSource)).setWidth 32 = pin then [(iso + offsetofSource, 1), (iso + offsetofGsi, 4)]
    else (iso + offsetofSource, 1) :: sourceReads s pin l

theorem gsiReads_eq : ∀ slots : List MadtIcs, gsiReads s pin slots =
    sourceReads s pin (slots.filterMap fun e => if (slot e).2 = 2 then some (slot e).1 else none)
  | [] => rfl
  | e :: slots => by
    rw [gsiReads, List.filterMap_cons, slot, gsiReads_eq slots]
    by_cases h2 : e.type = 2
    · rw [if_pos h2, if_pos h2]
      rfl
    · rw [if_neg h2, if_neg h2]

/-- The addresses of the overrides in the 64 slots. -/
theorem findGsiReads_eq (l : List Nat) : findGsiReads s ((l.map (tablePointer madt)).foldl (listRecord s) {}).icsArray pin =
    sourceReads s pin ((((l.filter fun off => writesIcs s (tablePointer madt off)).take 64).filter fun off =>
      recordType s madt off = 2).map (tablePointer madt)) := by
  have hslot : ∀ j, slot (((l.map (tablePointer madt)).foldl (listRecord s) {}).icsArray j) =
      (((l.filter fun off => writesIcs s (tablePointer madt off))[j]?).map fun off =>
        (tablePointer madt off, recordType s madt off)).getD (0, 0) := by
    intro j
    rw [collects_listRecord.array_foldl, if_neg (Nat.not_lt_zero j), Nat.sub_zero, List.filter_map, List.getElem?_map,
      Option.map_map]
    rfl
  rw [findGsiReads, gsiReads_eq, List.filterMap_map]
  congr 1
  have hsome : ((fun e => if (slot e).2 = 2 then some (slot e).1 else none) ∘
      ((l.map (tablePointer madt)).foldl (listRecord s) {}).icsArray) = fun j =>
        ((l.filter fun off => writesIcs s (tablePointer madt off))[j]?).bind fun off =>
          if recordType s madt off = 2 then some (tablePointer madt off) else none := by
    funext j
    rw [Function.comp_apply, hslot]
    cases (l.filter fun off => writesIcs s (tablePointer madt off))[j]? <;> rfl
  rw [hsome, filterMap_range, ← List.filterMap_eq_map, List.filterMap_filter]
  refine List.filterMap_congr fun off _ => ?_
  by_cases h2 : recordType s madt off = 2 <;> simp [h2]

theorem sourceReads_inside {l : List Nat} (hlt : ∀ off ∈ l, off < 2 ^ 32) (hsources : ∀ off ∈ l, off + 4 ≤ (tableLength s madt).toNat)
    (hgsis : ∀ off, (l.find? fun off => overrideSource s madt off = pin) = some off → off + 8 ≤ (tableLength s madt).toNat) :
    ∀ r ∈ sourceReads s pin (l.map (tablePointer madt)), Inside s madt r := by
  induction l with
  | nil => exact fun r hr => nomatch hr
  | cons off l ih =>
    have hoff := hlt off List.mem_cons_self
    have h3 : Inside s madt (tablePointer madt off + offsetofSource, 1) :=
      (inside_iff (k := 3) (by omega)).mpr (hsources off List.mem_cons_self)
    rw [List.map_cons, sourceReads]
    by_cases hpin : overrideSource s madt off = pin
    · have h4 : Inside s madt (tablePointer madt off + offsetofGsi, 4) :=
        (inside_iff (k := 4) (by omega)).mpr (hgsis off (by rw [List.find?_cons_of_pos (by simpa using hpin)]))
      rw [overrideSource] at hpin
      rw [if_pos hpin]
      simp [h3, h4]
    · rw [List.find?_cons_of_neg (by simpa using hpin)] at hgsis
      have hrest := ih (fun off h => hlt off (List.mem_cons_of_mem _ h)) (fun off h => hsources off (List.mem_cons_of_mem _ h)) hgsis
      rw [overrideSource] at hpin
      rw [if_neg hpin, List.forall_mem_cons]
      exact ⟨h3, hrest⟩

/-- A pin that no override is for makes `find_gsi` read all sources. -/
theorem source_mem_sourceReads {l : List Nat} (hpin : ∀ off ∈ l, overrideSource s madt off ≠ pin) (h : off ∈ l) :
    (tablePointer madt off + offsetofSource, 1) ∈ sourceReads s pin (l.map (tablePointer madt)) := by
  induction l with
  | nil => cases h
  | cons x l ih =>
    have hx := hpin x List.mem_cons_self
    rw [overrideSource] at hx
    rw [List.map_cons, sourceReads, if_neg hx]
    rcases List.mem_cons.mp h with rfl | h
    · exact List.mem_cons_self
    · exact List.mem_cons_of_mem _ (ih (fun off h => hpin off (List.mem_cons_of_mem _ h)) h)

theorem gsi_mem_sourceReads {l : List Nat} (h : (l.find? fun off => overrideSource s madt off = pin) = some off) :
    (tablePointer madt off + offsetofGsi, 4) ∈ sourceReads s pin (l.map (tablePointer madt)) := by
  induction l with
  | nil => cases h
  | cons x l ih =>
    rw [List.map_cons, sourceReads]
    by_cases hx : overrideSource s madt x = pin
    · rw [List.find?_cons_of_pos (by simpa using hx)] at h
      cases h
      rw [overrideSource] at hx
      rw [if_pos hx]
      exact List.mem_cons_of_mem _ List.mem_cons_self
    · rw [List.find?_cons_of_neg (by simpa using hx)] at h
      rw [overrideSource] at hx
      rw [if_neg hx]
      exact List.mem_cons_of_mem _ (ih h)

/-! ### Both -/

theorem lt_of_mem_tableRecords (h : off ∈ tableRecords s madt) : off < 2 ^ 32 := by
  have hlt := (tableLength s madt).isLt
  rw [tableRecords] at h
  split at h
  · have hend := (RecordWalk.bounds_of_mem h).2
    omega
  · cases h

theorem lt_of_mem_scannedOverrides (h : off ∈ scannedOverrides s madt) : off < 2 ^ 32 :=
  lt_of_mem_tableRecords (List.mem_of_mem_filter (List.mem_of_mem_take (List.mem_of_mem_filter h)))

section
variable (hsize : ∀ off ∈ tableRecords s madt, recordSize s madt off ≠ 0)
include hsize

theorem getMadtTables_ok : getMadtTables s madt {} = .ok (((tableRecords s madt).map (tablePointer madt)).foldl (listRecord s) {}) :=
  forRecords_ok hsize _

theorem RecordsFit.readsInside (h : RecordsFit s madt) : ReadsInside s madt := by
  refine ⟨⟨_, madtReads_eq hsize, fun r hr => ?_⟩, _, getMadtTables_ok hsize, fun pin r hr => ?_⟩
  · obtain ⟨off, hoff, hr⟩ := List.mem_flatMap.mp hr
    exact (recordReads_inside_iff (lt_of_mem_tableRecords hoff)).mpr (h.records off hoff) r hr
  · rw [findGsiReads_eq] at hr
    exact sourceReads_inside (fun _ => lt_of_mem_scannedOverrides) h.sources (h.gsis pin) r hr

theorem ReadsInside.recordsFit (h : ReadsInside s madt) : RecordsFit s madt := by
  obtain ⟨⟨reads, hreads, hwalk⟩, g, hg, hinside⟩ := h
  rw [madtReads_eq hsize] at hreads
  cases hreads
  rw [getMadtTables_ok hsize] at hg
  cases hg
  simp only [findGsiReads_eq] at hinside
  refine ⟨fun off hoff => ?_, fun off hoff => ?_, fun pin off hfind => ?_⟩
  · exact (recordReads_inside_iff (lt_of_mem_tableRecords hoff)).mp fun r hr => hwalk r (List.mem_flatMap.mpr ⟨off, hoff, hr⟩)
  · -- No byte is 256.
    have hpin : ∀ off ∈ scannedOverrides s madt, overrideSource s madt off ≠ 256 := fun off _ h => by
      have hbyte := (s.loadByte .identity (tablePointer madt off + offsetofSource)).isLt
      have h256 : (256 : BitVec 32).toNat = 256 := rfl
      have hnat := congrArg BitVec.toNat h
      rw [overrideSource, BitVec.toNat_setWidth] at hnat
      omega
    have hlt := lt_of_mem_scannedOverrides hoff
    have h3 := (inside_iff (k := 3) (by omega)).mp (hinside 256 _ (source_mem_sourceReads hpin hoff))
    omega
  · have hlt := lt_of_mem_scannedOverrides (List.mem_of_find?_eq_some hfind)
    have h4 := (inside_iff (k := 4) (by omega)).mp (hinside pin _ (gsi_mem_sourceReads hfind))
    omega

end

/-- Only bytes of the table are read exactly when its records fit into it. -/
theorem readsInside_iff (hsize : ∀ off ∈ tableRecords s madt, recordSize s madt off ≠ 0) :
    ReadsInside s madt ↔ RecordsFit s madt :=
  ⟨ReadsInside.recordsFit hsize, RecordsFit.readsInside hsize⟩

end

/-! ### A table with one override -/

/-- A table of `length` bytes at 0x1000 that begins with the override of ISA interrupt 1 by interrupt 2. -/
def overrideTable (length : Nat) : State where
  mem := (Memory.writeLE (fun _ => 0) 0x1004 4 length).writeLE 0x102c 8 0x201000a02

theorem readsInside_iff_sample : ReadsInside (overrideTable 54) 0x1000 ∧ (scannedOverrides (overrideTable 54) 0x1000) = [44] := by
  have hover : scannedOverrides (overrideTable 54) 0x1000 = [44] := by decide +kernel
  refine ⟨(readsInside_iff (by decide +kernel)).mpr ⟨by decide +kernel, by decide +kernel, ?_⟩, hover⟩
  intro pin off hfind
  have hmem := List.mem_of_find?_eq_some hfind
  rw [hover, List.mem_singleton] at hmem
  rw [hmem]
  decide +kernel

/-- The record is cut off after four bytes, and `find_gsi` reads the four bytes behind the table. -/
theorem override_read_outside : (tableLength (overrideTable 48) 0x1000).toNat = 48 ∧
    (∀ off ∈ tableRecords (overrideTable 48) 0x1000, recordSize (overrideTable 48) 0x1000 off ≠ 0) ∧
    ¬ReadsInside (overrideTable 48) 0x1000 := by
  have hsize : ∀ off ∈ tableRecords (overrideTable 48) 0x1000, recordSize (overrideTable 48) 0x1000 off ≠ 0 := by
    decide +kernel
  refine ⟨by decide +kernel, hsize, fun h => ?_⟩
  have hgsi := (h.recordsFit hsize).gsis 1 44 (by decide +kernel)
  exact absurd hgsi (by decide +kernel)

end Neobird64
