import Neobird64.Theorems.MadtWalk
import Neobird64.Lib.Records
import Neobird64.Lib.Collect

/-! What `get_madt_tables` makes of a well-formed MADT. The loop stops by a signed length: it runs over
    every record of a table whose records take less than 2^31 bytes, and over none of a longer one. -/

namespace Neobird64
open State Record

/-- The size of the struct with which a record of the type is read. -/
def minLength (type : BitVec 8) : Nat := if type = 0 then 8 else if type = 1 then 12 else if type = 2 then 10 else 2

/-- The MADT at `madt` has the records `rs`. -/
structure MadtAt (s : State) (madt : Word) (rs : List Record) : Prop where
  records : s.mem.Holds (madt.toNat + 44) (encode rs)
  length : (tableLength s madt).toNat = 44 + size rs
  extent : madt.toNat + 44 + size rs ≤ 2 ^ 64
  fits : ∀ r ∈ rs, minLength r.type ≤ r.length

/-- The records that `get_madt_tables` puts into `ics_array`. -/
def retained (r : Record) : Bool := (r.type = 0 && r.word32 4 ≠ 0) || r.type = 1 || r.type = 2

/-- The entry of a retained record in an array of zeros. -/
def icsEntry (x : Nat × Record) : MadtIcs :=
  let apicId := x.2.byte 3
  if x.2.type = 0 then ⟨BitVec.ofNat 64 x.1, 0, apicId, true⟩ else { address := BitVec.ofNat 64 x.1, type := x.2.type }

/-- The address of the I/O APIC of a record of type 1. -/
def ioapicaddr (r : Record) : Word := (r.word32 4).setWidth 64

/-- The record of type 2 for the ISA interrupt `pin`. -/
def overrides (pin : BitVec 32) (r : Record) : Bool := r.type = 2 && (r.byte 3).setWidth 32 = pin

/-- `get_madt_tables` visits every record once and lists those that it retains, and `find_gsi` finds the
    interrupts among them. -/
structure MadtParsed (s : State) (madt : Word) (rs : List Record) (g g' : MadtTables) : Prop where
  visited : visitedRecords s madt = .ok ((placed (madt.toNat + 44) rs).map fun x => BitVec.ofNat 64 x.1)
  icsArray : ∀ i, g'.icsArray i =
    ((((placed (madt.toNat + 44) rs).filter fun x => retained x.2)[i]?).map icsEntry).getD (g.icsArray i)
  ioapicAddress : g'.ioapicAddress = (((rs.filter fun r => r.type = 1).getLast?).map ioapicaddr).getD g.ioapicAddress
  gsi : ∀ pin, findGsi s g'.icsArray pin = ((rs.find? (overrides pin)).map fun r => r.word32 4).getD pin

section
variable {s : State} {madt : Word} {rs : List Record} {r : Record} {a p : Nat} {g g' : MadtTables} {pin : BitVec 32}
variable {σ : Type} {body : σ → Word → σ}

/-! ### The loop -/

theorem loadByte_ofNat (h : a < 2 ^ 64) : s.loadByte .identity (BitVec.ofNat 64 a) = s.mem a := by
  rw [loadByte, phys, BitVec.toNat_ofNat, Nat.mod_eq_of_lt h]

theorem load32_ofNat (h : a < 2 ^ 64) : s.load32 .identity (BitVec.ofNat 64 a) = s.mem.read32 a := by
  rw [load32, phys, BitVec.toNat_ofNat, Nat.mod_eq_of_lt h]

theorem ofNat_add_ofNat (k : Nat) : BitVec.ofNat 64 a + BitVec.ofNat 64 k = BitVec.ofNat 64 (a + k) :=
  (BitVec.ofNat_add a k).symm

theorem next_of_holds (h : s.mem.Holds a r.bytes) (hlt : a + r.length ≤ 2 ^ 64) (len : Int) :
    MadtCursor.next s ⟨BitVec.ofNat 64 a, len⟩ = ⟨BitVec.ofNat 64 (a + r.length), len - r.length⟩ := by
  have hr : r.length = r.body.length + 2 := rfl
  have hfits := r.fits
  have hone : offsetofRecordLength = BitVec.ofNat 64 1 := rfl
  have hlen : (BitVec.ofNat 8 r.length).toNat = r.length := by
    rw [BitVec.toNat_ofNat]
    omega
  have hwide : (BitVec.ofNat 8 r.length).setWidth 64 = BitVec.ofNat 64 r.length := by
    apply BitVec.eq_of_toNat_eq
    rw [BitVec.toNat_setWidth, hlen, BitVec.toNat_ofNat]
  simp only [MadtCursor.next, hone]
  rw [ofNat_add_ofNat, loadByte_ofNat (by omega), load_length h, hlen, hwide, ofNat_add_ofNat]

/-- The loop over the bytes of the records is a fold over the records. -/
theorem recordLoop_eq (h : s.mem.Holds a (encode rs)) (hext : a + size rs ≤ 2 ^ 64) {fuel : Nat}
    (hfuel : rs.length < fuel) (g : σ) :
    Loop.forLoop Halt.hang (fun c : MadtCursor => decide (0 < c.length)) (MadtCursor.next s)
      (fun g c => .ok (body g c.cur)) fuel ⟨BitVec.ofNat 64 a, size rs⟩ g =
        .ok ((placed a rs).foldl (fun g x => body g (BitVec.ofNat 64 x.1)) g) := by
  induction rs generalizing a g fuel with
  | nil =>
    obtain ⟨fuel, rfl⟩ := Nat.exists_eq_add_of_lt hfuel
    simp [Loop.forLoop, size, placed]
  | cons r rs ih =>
    obtain ⟨fuel, rfl⟩ : ∃ k, fuel = k + 1 := ⟨fuel - 1, by omega⟩
    rw [encode, List.flatMap_cons, Memory.holds_append, length_bytes] at h
    rw [size_cons] at hext ⊢
    have hpos : r.length = r.body.length + 2 := rfl
    rw [Loop.forLoop, if_pos (by simp; omega), Loop.ok_bind, next_of_holds h.1 (by omega), placed, List.foldl_cons]
    have hsub : ((r.length + size rs : Nat) : Int) - r.length = (size rs : Nat) := by omega
    rw [hsub]
    exact ih h.2 (by omega) (by rw [List.length_cons] at hfuel; omega) _

theorem forRecords_eq (h : MadtAt s madt rs) (hsize : size rs < 2 ^ 31) (g : σ) : forRecords s madt body g =
    .ok ((placed (madt.toNat + 44) rs).foldl (fun g x => body g (BitVec.ofNat 64 x.1)) g) := by
  have hfirst : madt + offsetofFirstIcs = BitVec.ofNat 64 (madt.toNat + 44) := by
    apply BitVec.eq_of_toNat_eq
    rw [BitVec.toNat_add, BitVec.toNat_ofNat]
    rfl
  have hlength : madtLength s madt = size rs := by
    rw [madtLength_eq, h.length, if_pos (by omega)]
    omega
  have hle : rs.length ≤ size rs := length_le
  rw [forRecords, hlength, hfirst]
  exact recordLoop_eq h.records h.extent (by rw [recordFuel]; omega) g

/-- The length of a longer table is negative as an `int`: the loop does not start. -/
theorem forRecords_of_large (h : MadtAt s madt rs) (hsize : 2 ^ 31 ≤ size rs) (g : σ) : forRecords s madt body g = .ok g := by
  have hlength := h.length
  have hnone : tableRecords s madt = [] := by rw [tableRecords, if_neg (by omega)]
  have hsizes : ∀ off ∈ tableRecords s madt, recordSize s madt off ≠ 0 := by simp [hnone]
  rw [forRecords_ok hsizes, hnone]
  rfl

/-! ### One record -/

/-- What the body of the loop does with the entry of a retained record. -/
def putEntry (old : MadtIcs) (x : Nat × Record) : MadtIcs :=
  if x.2.type = 0 then icsEntry x else { old with address := BitVec.ofNat 64 x.1, type := x.2.type }

/-- What the body of the loop does with a record. -/
def putRecord (g : MadtTables) (x : Nat × Record) : MadtTables where
  icsArray := if retained x.2 then Function.update g.icsArray g.i (putEntry (g.icsArray g.i) x) else g.icsArray
  ioapicAddress := if x.2.type = 1 then ioapicaddr x.2 else g.ioapicAddress
  i := if retained x.2 then g.i + 1 else g.i

theorem putRecord_of_not {x : Nat × Record} (h : retained x.2 = false) : putRecord g x = g := by
  have h1 : x.2.type ≠ 1 := fun h1 => by simp [retained, h1] at h
  have hne : ¬retained x.2 = true := by rw [h]; exact Bool.false_ne_true
  rw [putRecord, if_neg hne, if_neg h1, if_neg hne]

theorem listRecord_eq (h : s.mem.Holds p r.bytes) (hext : p + r.length ≤ 2 ^ 64) (hfits : minLength r.type ≤ r.length) :
    listRecord s g (BitVec.ofNat 64 p) = putRecord g (p, r) := by
  have hr : r.length = r.body.length + 2 := rfl
  have hfour : (4 : Word) = BitVec.ofNat 64 4 := rfl
  have hthree : (3 : Word) = BitVec.ofNat 64 3 := rfl
  have htype : s.loadByte .identity (BitVec.ofNat 64 p) = r.type := by rw [loadByte_ofNat (by omega), load_type h]
  have hword : 8 ≤ minLength r.type → s.load32 .identity (BitVec.ofNat 64 p + 4) = r.word32 4 := fun hmin => by
    rw [hfour, ofNat_add_ofNat, load32_ofNat (by omega), load_word32 h (by omega)]
  have hbyte : 8 ≤ minLength r.type → s.loadByte .identity (BitVec.ofNat 64 p + 3) = r.byte 3 := fun hmin => by
    rw [hthree, ofNat_add_ofNat, loadByte_ofNat (by omega), load_byte h (by omega)]
  simp only [listRecord, htype, offsetofFlags, offsetofIoapicaddr, offsetofApicID]
  by_cases h0 : r.type = 0
  · have hmin : 8 ≤ minLength r.type := by simp [minLength, h0]
    have h1 : r.type ≠ 1 := by rw [h0]; decide
    rw [if_pos h0, hword hmin, hbyte hmin]
    by_cases hflags : r.word32 4 = 0
    · rw [if_pos hflags, putRecord_of_not (by simp [retained, h0, hflags])]
    · have hne : r.word32 4 ≠ 0#32 := hflags
      have hret : retained r = true := by simp [retained, h0, hne]
      rw [if_neg hflags, putRecord, if_pos hret, if_pos hret, if_neg h1, putEntry, if_pos h0, icsEntry, if_pos h0, h0]
  by_cases h1 : r.type = 1
  · have hret : retained r = true := by simp [retained, h1]
    rw [if_neg h0, if_pos h1, hword (by simp [minLength, h1]), putRecord, if_pos hret, if_pos hret, if_pos h1, putEntry,
      if_neg h0, ioapicaddr]
  rw [if_neg h0, if_neg h1]
  by_cases h2 : r.type = 2
  · have hret : retained r = true := by simp [retained, h2]
    rw [if_pos h2, putRecord, if_pos hret, if_pos hret, if_neg h1, putEntry, if_neg h0]
  · rw [if_neg h2, putRecord_of_not (by simp only [retained, h0, h1, h2]; rfl)]

/-! ### All records -/

theorem getMadtTables_eq (h : MadtAt s madt rs) (hsize : size rs < 2 ^ 31) : getMadtTables s madt g =
    .ok ((placed (madt.toNat + 44) rs).foldl putRecord { g with i := 0 }) := by
  rw [getMadtTables, forRecords_eq h hsize]
  congr 1
  refine List.foldl_ext _ _ _ fun g x hx => ?_
  obtain ⟨hr, hle⟩ := holds_of_placed h.records hx
  have hext := h.extent
  exact listRecord_eq hr (by omega) (h.fits _ (mem_of_placed hx))

theorem collects_putRecord : Collects putRecord MadtTables.icsArray MadtTables.i (fun x => retained x.2) putEntry where
  next_step _ _ := rfl
  array_step g x j := by
    have harray : (putRecord g x).icsArray =
        if retained x.2 then Function.update g.icsArray g.i (putEntry (g.icsArray g.i) x) else g.icsArray := rfl
    rw [harray]
    by_cases hx : retained x.2 = true
    · by_cases hj : j = g.i
      · rw [if_pos hx, if_pos ⟨hx, hj⟩, hj, Function.update_self]
      · rw [if_pos hx, if_neg fun h => hj h.2, Function.update_of_ne hj]
    · rw [if_neg hx, if_neg fun h => hx h.1]

theorem ioapicAddress_foldl (l : List (Nat × Record)) (g : MadtTables) : (l.foldl putRecord g).ioapicAddress =
    ((((l.map Prod.snd).filter fun r => r.type = 1).getLast?).map ioapicaddr).getD g.ioapicAddress := by
  induction l using List.reverseRecOn with
  | nil => rfl
  | append_singleton l x ih =>
    rw [List.foldl_append, List.foldl_cons, List.foldl_nil, putRecord, ih, List.map_append, List.filter_append]
    by_cases hx : x.2.type = 1
    · simp [hx]
    · rw [if_neg hx, List.map_singleton, List.filter_singleton, decide_eq_false hx]
      simp

/-! ### The search for an interrupt -/

theorem findSome?_congr {α β : Type} {f f' : α → Option β} : ∀ {l : List α}, (∀ x ∈ l, f x = f' x) →
    l.findSome? f = l.findSome? f'
  | [], _ => rfl
  | x :: l, h => by
    rw [List.findSome?_cons, List.findSome?_cons, h x List.mem_cons_self,
      findSome?_congr fun y hy => h y (List.mem_cons_of_mem _ hy)]

/-- A search through the slots of an array that holds a list is a search through the list. -/
theorem findSome?_range {α β : Type} (f : α → Option β) : ∀ {l : List α} {n : Nat}, l.length ≤ n →
    ((List.range n).findSome? fun i => (l[i]?).bind f) = l.findSome? f
  | [], n, _ => by simp
  | x :: l, 0, h => by simp at h
  | x :: l, n + 1, h => by
    have ih := findSome?_range f (l := l) (n := n) (by simpa using h)
    rw [List.range_succ_eq_map, List.findSome?_cons, List.findSome?_cons, List.findSome?_map]
    simp only [List.getElem?_cons_zero, Option.bind_some, Function.comp_def, List.getElem?_cons_succ, ih]

theorem findSome?_placed : ((placed a rs).filter fun x => retained x.2).findSome?
    (fun x => if overrides pin x.2 then some (x.2.word32 4) else none) =
      (rs.find? (overrides pin)).map fun r => r.word32 4 := by
  induction rs generalizing a with
  | nil => rfl
  | cons r rs ih =>
    rw [placed, List.filter_cons, List.find?_cons]
    by_cases hr : overrides pin r = true
    · have hret : retained r = true := by
        simp only [overrides, Bool.and_eq_true, decide_eq_true_eq] at hr
        simp [retained, hr.1]
      simp [hr, hret]
    · by_cases hret : retained r = true <;> simp [hr, hret, ih]

theorem icsEntry_type (x : Nat × Record) : (icsEntry x).type = x.2.type := by
  rw [icsEntry]
  split
  · rename_i h0
    exact h0.symm
  · rfl

theorem icsEntry_address (x : Nat × Record) : (icsEntry x).address = BitVec.ofNat 64 x.1 := by
  rw [icsEntry]
  split <;> rfl

theorem findGsi_eq {l : List (Nat × Record)} {ics : Nat → MadtIcs} (hl : ∀ x ∈ l, s.mem.Holds x.1 x.2.bytes ∧
    x.1 + x.2.length ≤ 2 ^ 64 ∧ minLength x.2.type ≤ x.2.length) (hlen : l.length ≤ 64)
    (hics : ∀ i < 64, ics i = ((l[i]?).map icsEntry).getD {}) : findGsi s ics pin =
      (l.findSome? fun x => if overrides pin x.2 then some (x.2.word32 4) else none).getD pin := by
  rw [findGsi, ← findSome?_range _ hlen]
  congr 1
  refine findSome?_congr fun i hi => ?_
  rw [hics i (List.mem_range.mp hi)]
  cases hx : l[i]? with
  | none => simp
  | some x =>
    obtain ⟨hr, hext, hfits⟩ := hl x (List.mem_of_getElem? hx)
    have hlen : x.2.length = x.2.body.length + 2 := rfl
    have hthree : offsetofSource = BitVec.ofNat 64 3 := rfl
    have hfour : offsetofGsi = BitVec.ofNat 64 4 := rfl
    simp only [Option.map_some, Option.getD_some, Option.bind_some, icsEntry_type, icsEntry_address, hthree, hfour]
    by_cases h2 : x.2.type = 2
    · have hmin : minLength x.2.type = 10 := by rw [h2]; rfl
      rw [ofNat_add_ofNat, ofNat_add_ofNat, loadByte_ofNat (by omega), load32_ofNat (by omega), load_byte hr (by omega),
        load_word32 hr (by omega)]
      simp [overrides]
    · have hno : overrides pin x.2 = false := by rw [overrides, decide_eq_false h2, Bool.false_and]
      rw [if_neg fun h => h2 h.1, hno]
      rfl

theorem length_retained : ((placed a rs).filter fun x => retained x.2).length = (rs.filter retained).length := by
  have hmap : rs = (placed a rs).map Prod.snd := map_snd_placed.symm
  conv_rhs => rw [hmap, List.filter_map, List.length_map]
  rfl

/-! ### The whole table -/

/-- The array after the loop, when the entries that it writes were zeros. -/
theorem icsArray_of_zero {l : List (Nat × Record)} (hzero : ∀ i < (l.filter fun x => retained x.2).length, g.icsArray i = {})
    (i : Nat) : (l.foldl putRecord { g with i := 0 }).icsArray i =
      (((l.filter fun x => retained x.2)[i]?).map icsEntry).getD (g.icsArray i) := by
  rw [collects_putRecord.array_foldl, if_neg (Nat.not_lt_zero i), Nat.sub_zero]
  cases hx : (l.filter fun x => retained x.2)[i]? with
  | none => rfl
  | some x =>
    obtain ⟨hi, -⟩ := List.getElem?_eq_some_iff.mp hx
    rw [Option.map_some, Option.map_some, Option.getD_some, Option.getD_some]
    simp only [hzero i hi, putEntry]
    split
    · rfl
    · rename_i h0
      rw [icsEntry, if_neg h0]

theorem madtParsed_of_size (h : MadtAt s madt rs) (hcount : (rs.filter retained).length ≤ 64)
    (hzero : ∀ i < 64, g.icsArray i = {}) (hsize : size rs < 2 ^ 31) :
    ∃ g', getMadtTables s madt g = .ok g' ∧ MadtParsed s madt rs g g' := by
  have hlen : ((placed (madt.toNat + 44) rs).filter fun x => retained x.2).length ≤ 64 := by
    rwa [length_retained]
  have hics := icsArray_of_zero (g := g) (l := placed (madt.toNat + 44) rs) fun i hi => hzero i (by omega)
  refine ⟨_, getMadtTables_eq h hsize, ?_, hics, ?_, fun pin => ?_⟩
  · have hvisit : ∀ (l : List (Nat × Record)) (v : List Word), l.foldl (fun v x => v ++ [BitVec.ofNat 64 x.1]) v =
        v ++ l.map fun x => BitVec.ofNat 64 x.1 := fun l v => by
      induction l generalizing v with
      | nil => simp
      | cons x l ih => rw [List.foldl_cons, ih, List.map_cons, List.append_assoc, List.singleton_append]
    rw [visitedRecords, forRecords_eq h hsize, hvisit, List.nil_append]
  · rw [ioapicAddress_foldl, map_snd_placed]
  · rw [findGsi_eq (fun x hx => ?_) hlen fun i hi => by rw [hics, hzero i hi], findSome?_placed]
    have hmem := List.mem_of_mem_filter hx
    obtain ⟨hr, hle⟩ := holds_of_placed h.records hmem
    have hext := h.extent
    exact ⟨hr, by omega, h.fits _ (mem_of_placed hmem)⟩

theorem visitedRecords_of_large (h : MadtAt s madt rs) (hsize : 2 ^ 31 ≤ size rs) : visitedRecords s madt = .ok [] :=
  forRecords_of_large h hsize []

theorem not_madtParsed_of_large (h : MadtAt s madt rs) (hsize : 2 ^ 31 ≤ size rs) : ¬MadtParsed s madt rs g g' := by
  intro hp
  have hvisited := hp.visited
  rw [visitedRecords_of_large h hsize] at hvisited
  cases rs with
  | nil => simp [size] at hsize
  | cons r rs => simp [placed] at hvisited

/-- `get_madt_tables` reads a well-formed MADT exactly when its records take less than 2^31 bytes. -/
theorem madtParsed_iff (h : MadtAt s madt rs) (hcount : (rs.filter retained).length ≤ 64)
    (hzero : ∀ i < 64, g.icsArray i = {}) :
    (∃ g', getMadtTables s madt g = .ok g' ∧ MadtParsed s madt rs g g') ↔ size rs < 2 ^ 31 := by
  refine ⟨fun ⟨g', _, hp⟩ => ?_, madtParsed_of_size h hcount hzero⟩
  by_contra hsize
  exact not_madtParsed_of_large h (by omega) hp

end

/-! ### Tables in memory -/

/-- A memory with a MADT at 0x1000: its length and its records. -/
def tableState (rs : List Record) : State where
  mem := Memory.writeLE (fun a => (encode rs).getD (a - 0x102c) 0) 0x1004 4 (44 + size rs)

theorem madtAt_tableState {rs : List Record} (hsize : 44 + size rs < 2 ^ 32) (hfits : ∀ r ∈ rs, minLength r.type ≤ r.length) :
    MadtAt (tableState rs) 0x1000 rs where
  records i hi := by
    have hbase : (0x1000 : Word).toNat = 0x1000 := rfl
    have hsub : 0x1000 + 44 + i - 0x102c = i := by omega
    have hout := Memory.writeLE_of_outside (m := fun a => (encode rs).getD (a - 0x102c) 0) (a := 0x1004) (n := 4)
      (v := 44 + size rs) (x := 0x1000 + 44 + i) (by omega)
    rw [hsub] at hout
    rw [hbase]
    exact hout
  length := by
    have hptr : (tableState rs).phys .identity (0x1000 + offsetofLength) = 0x1004 := rfl
    rw [tableLength, load32, hptr, tableState, Memory.read32, Memory.readLE_writeLE, BitVec.toNat_ofNat]
    omega
  extent := by
    have hbase : (0x1000 : Word).toNat = 0x1000 := rfl
    omega
  fits := hfits

/-- A processor, an I/O APIC and the override of ISA interrupt 0. -/
def sampleRecords : List Record :=
  [⟨0, [0, 0, 1, 0, 0, 0], by decide⟩, ⟨1, [0, 0, 0x00, 0x00, 0xc0, 0xfe, 0, 0, 0, 0], by decide⟩,
    ⟨2, [0, 0, 2, 0, 0, 0, 0, 0], by decide⟩]

theorem madtParsed_iff_sample : ∃ g', getMadtTables (tableState sampleRecords) 0x1000 {} = .ok g' ∧
    MadtParsed (tableState sampleRecords) 0x1000 sampleRecords {} g' :=
  (madtParsed_iff (madtAt_tableState (by decide) (by decide)) (by decide) fun _ _ => rfl).mpr (by decide)

def largeRecord : Record := ⟨255, List.replicate 253 255, by rw [List.length_replicate]⟩

theorem length_largeRecord : largeRecord.length = 255 := by rw [length, largeRecord, List.length_replicate]

/-- 2147483775 bytes of records of an unknown type. -/
def largeRecords : List Record := List.replicate 8421505 largeRecord

/-- The loop does not visit one of these records. -/
theorem large_madt_unread : MadtAt (tableState largeRecords) 0x1000 largeRecords ∧
    (largeRecords.filter retained).length ≤ 64 ∧
    ¬∃ g', getMadtTables (tableState largeRecords) 0x1000 {} = .ok g' ∧
      MadtParsed (tableState largeRecords) 0x1000 largeRecords {} g' := by
  have hsize : size largeRecords = 2147483775 := by
    rw [size, largeRecords, List.map_replicate, List.sum_replicate, length_largeRecord, nsmul_eq_mul, Nat.cast_id]
    rfl
  have hmem : ∀ r ∈ largeRecords, r = largeRecord := fun r hr => (List.mem_replicate.mp hr).2
  have hat : MadtAt (tableState largeRecords) 0x1000 largeRecords := madtAt_tableState (by omega) fun r hr => by
    rw [hmem r hr, length_largeRecord]
    decide
  refine ⟨hat, ?_, ?_⟩
  · have hnone : largeRecords.filter retained = [] := by
      rw [List.filter_eq_nil_iff]
      intro r hr
      rw [hmem r hr]
      decide
    rw [hnone]
    exact Nat.zero_le _
  · rintro ⟨g', -, hp⟩
    exact not_madtParsed_of_large hat (by omega) hp

end Neobird64
