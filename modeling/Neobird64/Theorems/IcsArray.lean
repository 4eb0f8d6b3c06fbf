import Neobird64.Theorems.Madt

/-! The indices of `ics_array`. Each retained record takes the next one, and nothing compares it with the 64
    entries of the array. -/

namespace Neobird64
open State Record

/-- All writes of `get_madt_tables` to `ics_array` are inside the array, and `find_gsi` gets to the entry of every
    retained record. -/
structure IcsSafe (s : State) (madt : Word) (rs : List Record) : Prop where
  writes : ∃ indices, icsIndices s madt {} = .ok indices ∧ ∀ i ∈ indices, i < 64
  visible : ∃ g, getMadtTables s madt {} = .ok g ∧ ∀ x ∈ placed (madt.toNat + 44) rs, retained x.2 = true →
    ∃ i < 64, (g.icsArray i).address = BitVec.ofNat 64 x.1 ∧ (g.icsArray i).type = x.2.type

section
variable {s : State} {madt : Word} {rs : List Record} {r : Record} {p : Nat} {g : MadtTables} {x : Nat × Record}

/-! ### The indices -/

theorem writesIcs_eq (h : s.mem.Holds p r.bytes) (hext : p + r.length ≤ 2 ^ 64) (hfits : minLength r.type ≤ r.length) :
    writesIcs s (BitVec.ofNat 64 p) = retained r := by
  have hr : r.length = r.body.length + 2 := rfl
  have hfour : offsetofFlags = BitVec.ofNat 64 4 := rfl
  have htype : s.loadByte .identity (BitVec.ofNat 64 p) = r.type := by rw [loadByte_ofNat (by omega), load_type h]
  simp only [writesIcs, retained, htype]
  by_cases h0 : r.type = 0
  · have hmin : minLength r.type = 8 := by rw [h0]; rfl
    rw [hfour, ofNat_add_ofNat, load32_ofNat (by omega), load_word32 h (by omega)]
  · rw [decide_eq_false h0, Bool.false_and, Bool.false_and]

/-- The loop with the indices that it writes. -/
def putIndex (acc : MadtTables × List Nat) (x : Nat × Record) : MadtTables × List Nat :=
  (putRecord acc.1 x, if retained x.2 then acc.2 ++ [acc.1.i] else acc.2)

theorem putIndex_foldl (l : List (Nat × Record)) (g : MadtTables) :
    (l.foldl putIndex ({ g with i := 0 }, [])).1.i = (l.filter fun x => retained x.2).length ∧
      (l.foldl putIndex ({ g with i := 0 }, [])).2 = List.range (l.filter fun x => retained x.2).length := by
  induction l using List.reverseRecOn with
  | nil => exact ⟨rfl, rfl⟩
  | append_singleton l x ih =>
    obtain ⟨hi, hindices⟩ := ih
    rw [List.foldl_append, List.foldl_cons, List.foldl_nil, List.filter_append, List.filter_singleton, putIndex, putRecord]
    by_cases hx : retained x.2 = true
    · simp only [hx, if_true, cond_true, List.length_append, List.length_singleton]
      exact ⟨by rw [hi], by rw [hi, hindices, List.range_succ]⟩
    · rw [Bool.not_eq_true] at hx
      simp only [hx, Bool.false_eq_true, if_false, cond_false, List.append_nil]
      exact ⟨hi, hindices⟩

variable (h : MadtAt s madt rs)
include h

theorem icsIndices_eq (hsize : size rs < 2 ^ 31) : icsIndices s madt g = .ok (List.range (rs.filter retained).length) := by
  have hfold : ∀ acc, (placed (madt.toNat + 44) rs).foldl (fun (acc : MadtTables × List Nat) x =>
      (listRecord s acc.1 (BitVec.ofNat 64 x.1), if writesIcs s (BitVec.ofNat 64 x.1) then acc.2 ++ [acc.1.i] else acc.2)) acc =
        (placed (madt.toNat + 44) rs).foldl putIndex acc := fun acc => by
    refine List.foldl_ext _ _ _ fun acc x hx => ?_
    obtain ⟨hr, hle⟩ := holds_of_placed h.records hx
    have hext := h.extent
    have hfits := h.fits _ (mem_of_placed hx)
    rw [putIndex, listRecord_eq hr (by omega) hfits, writesIcs_eq hr (by omega) hfits]
  rw [icsIndices, forRecords_eq h hsize, hfold, ← length_retained, ← (putIndex_foldl _ g).2]
  rfl

/-! ### The array and its users -/

theorem IcsSafe.count_le (hsafe : IcsSafe s madt rs) (hsize : size rs < 2 ^ 31) : (rs.filter retained).length ≤ 64 := by
  obtain ⟨⟨indices, hindices, hlt⟩, -⟩ := hsafe
  rw [icsIndices_eq h hsize] at hindices
  cases hindices
  by_contra hbig
  have hmem := hlt 64 (List.mem_range.mpr (by omega))
  omega

/-- When no record is read, the array has no pointer to one. -/
theorem IcsSafe.nil_of_large (hsafe : IcsSafe s madt rs) (hsize : 2 ^ 31 ≤ size rs) : rs.filter retained = [] := by
  obtain ⟨-, g, hg, hvisible⟩ := hsafe
  rw [getMadtTables, forRecords_of_large h hsize] at hg
  cases hg
  have hrs : rs = (placed (madt.toNat + 44) rs).map Prod.snd := map_snd_placed.symm
  rw [hrs, List.filter_map, List.map_eq_nil_iff, List.filter_eq_nil_iff]
  intro x hx hret
  obtain ⟨i, -, haddr, -⟩ := hvisible x hx hret
  have hlo := le_of_placed hx
  have hhi := (holds_of_placed h.records hx).2
  have hlength : x.2.length = x.2.body.length + 2 := rfl
  have hext := h.extent
  have hzero : (0 : Word) = BitVec.ofNat 64 x.1 := haddr
  have hnat := congrArg BitVec.toNat hzero
  have h0 : (0 : Word).toNat = 0 := rfl
  rw [h0, BitVec.toNat_ofNat] at hnat
  omega

theorem icsSafe_of_count (hcount : (rs.filter retained).length ≤ 64) (hsize : size rs < 2 ^ 31) : IcsSafe s madt rs := by
  refine ⟨⟨_, icsIndices_eq h hsize, fun i hi => ?_⟩, _, getMadtTables_eq h hsize, fun x hx hret => ?_⟩
  · have hlt := List.mem_range.mp hi
    omega
  · have hmem : x ∈ (placed (madt.toNat + 44) rs).filter fun x => retained x.2 := List.mem_filter.mpr ⟨hx, hret⟩
    obtain ⟨i, hi, hget⟩ := List.getElem_of_mem hmem
    have hi' := hi
    rw [length_retained] at hi'
    refine ⟨i, by omega, ?_⟩
    rw [icsArray_of_zero fun _ _ => rfl, List.getElem?_eq_getElem hi, hget, Option.map_some, Option.getD_some]
    exact ⟨icsEntry_address x, icsEntry_type x⟩

/-- The array is large enough exactly when at most 64 records are retained. In a table of 2^31 bytes of records or
    more none is found, so there must be none to retain. -/
theorem icsSafe_iff : IcsSafe s madt rs ↔
    (rs.filter retained).length ≤ 64 ∧ (size rs < 2 ^ 31 ∨ rs.filter retained = []) := by
  constructor
  · intro hsafe
    rcases Nat.lt_or_ge (size rs) (2 ^ 31) with hsize | hsize
    · exact ⟨hsafe.count_le h hsize, Or.inl hsize⟩
    · have hnil := hsafe.nil_of_large h hsize
      exact ⟨by rw [hnil]; exact Nat.zero_le _, Or.inr hnil⟩
  · rintro ⟨hcount, hsize⟩
    rcases Nat.lt_or_ge (size rs) (2 ^ 31) with hlt | hge
    · exact icsSafe_of_count h hcount hlt
    · have hnil := hsize.resolve_left (by omega)
      refine ⟨⟨[], ?_, fun i hi => nomatch hi⟩, _, forRecords_of_large h hge _, fun x hx hret => ?_⟩
      · rw [icsIndices, forRecords_of_large h hge]
        rfl
      · have hmem : x.2 ∈ rs.filter retained := List.mem_filter.mpr ⟨mem_of_placed hx, hret⟩
        rw [hnil] at hmem
        cases hmem

end

/-! ### A machine with many processors -/

theorem icsSafe_iff_sample : IcsSafe (tableState sampleRecords) 0x1000 sampleRecords :=
  (icsSafe_iff (madtAt_tableState (by decide) (by decide))).mpr (by decide)

/-- 65 enabled processors. -/
def manyProcessors : List Record := List.replicate 65 ⟨0, [0, 1, 1, 0, 0, 0], by decide⟩

/-- The last one is written behind the array. -/
theorem processor_65_outside : MadtAt (tableState manyProcessors) 0x1000 manyProcessors ∧
    ¬IcsSafe (tableState manyProcessors) 0x1000 manyProcessors := by
  have hat : MadtAt (tableState manyProcessors) 0x1000 manyProcessors := madtAt_tableState (by decide) (by decide)
  exact ⟨hat, fun h => absurd (h.count_le hat (by decide)) (by decide)⟩

end Neobird64
