import Neobird64.Gdt
import Neobird64.Lib.BitFields

/-! The base of the TSS as the processor reads it. `gdt_set_entry` fills a descriptor of 8 bytes, so the upper
    half of the base, in the entry after it, stays 0. -/

namespace Neobird64
open BitFields

/-- The descriptors after the first `gdt_init`, and after more steps of it on any processors. -/
inductive GdtRun (tss : Word) : Gdt → Prop
  | init {gdt : Gdt} (h : gdtInit tss gdtStart = some gdt) : GdtRun tss gdt
  | write {gdt : Gdt} (h : GdtRun tss gdt) : GdtRun tss (gdtInitEntries tss gdt)
  | load {gdt gdt' : Gdt} (h : GdtRun tss gdt) (hltr : ltr gdt = some gdt') : GdtRun tss gdt'

section
variable {tss base limit high : Word} {gdt gdt' : Gdt} {num : Fin 7} {access granularity : BitVec 8} {d : GdtDesc}

/-! ### One descriptor -/

/-- The fields of the descriptor hold the lower half of the base. -/
structure LowBase (d : GdtDesc) (base : Word) : Prop where
  low : d.baseLow = base.setWidth 16
  middle : d.baseMiddle = (base >>> 16).setWidth 8
  high : d.baseHigh = (base >>> 24).setWidth 8

theorem systemBase_bits : systemBase d.bits high = high.extractLsb' 0 32 ++ d.baseHigh ++ d.baseMiddle ++ d.baseLow := by
  apply BitVec.eq_of_getLsbD_eq
  intro i hi
  simp only [systemBase, GdtDesc.bits, BitVec.getLsbD_append, BitVec.getLsbD_extractLsb']
  grind

theorem LowBase.systemBase (h : LowBase d base) : systemBase d.bits 0 = (base.setWidth 32).setWidth 64 := by
  rw [systemBase_bits, h.low, h.middle, h.high]
  apply BitVec.eq_of_getLsbD_eq
  intro i hi
  simp only [BitVec.getLsbD_append, BitVec.getLsbD_extractLsb', BitVec.getLsbD_setWidth, BitVec.getLsbD_ushiftRight]
  grind

theorem lowBase_gdtSetEntry : LowBase (gdtSetEntry gdt num base limit access granularity num) base := by
  have hbyte : ∀ k : Nat, ((base >>> k) &&& 0xFF).setWidth 8 = (base >>> k).setWidth 8 := fun k => setWidth_and_mask 8 rfl
  have hlow : (base &&& 0xFFFF).setWidth 16 = base.setWidth 16 := setWidth_and_mask 16 rfl
  rw [gdtSetEntry_eq, Function.update_self]
  exact ⟨hlow, hbyte 16, hbyte 24⟩

/-! ### All steps -/

theorem gdtInitEntries_six : gdtInitEntries tss gdt 6 = gdt 6 := by
  have hne : ∀ {g : Gdt} {n : Fin 7} {b l : Word} {a c : BitVec 8}, 6 ≠ n → gdtSetEntry g n b l a c 6 = g 6 :=
    fun h => Function.update_of_ne h _ _
  rw [gdtInitEntries, hne (by decide), hne (by decide), hne (by decide), hne (by decide), hne (by decide), hne (by decide)]

theorem ltr_eq (h : ltr gdt = some gdt') :
    gdt' = Function.update gdt 5 { gdt 5 with access := (gdt 5).access ||| 0x02 } := by
  rw [ltr] at h
  split at h
  · exact (Option.some.inj h).symm
  · cases h

/-- What all steps keep: entry 5 has the lower half of the base, and entry 6 is as it was. -/
theorem GdtRun.inv (h : GdtRun tss gdt) : LowBase (gdt 5) tss ∧ gdt 6 = gdtStart 6 := by
  have write : ∀ g, LowBase (gdtInitEntries tss g 5) tss ∧ gdtInitEntries tss g 6 = g 6 :=
    fun g => ⟨lowBase_gdtSetEntry, gdtInitEntries_six⟩
  have load : ∀ {g g'}, ltr g = some g' → LowBase (g 5) tss ∧ g 6 = gdtStart 6 → LowBase (g' 5) tss ∧ g' 6 = gdtStart 6 := by
    rintro g g' hltr ⟨hlow, hsix⟩
    rw [ltr_eq hltr, Function.update_self, Function.update_of_ne (by decide)]
    exact ⟨⟨hlow.low, hlow.middle, hlow.high⟩, hsix⟩
  induction h with
  | init h => exact load h (write gdtStart)
  | write _ ih =>
    obtain ⟨hlow, hsix⟩ := write _
    exact ⟨hlow, hsix.trans ih.2⟩
  | load _ hltr ih => exact load hltr ih

/-- The processor reads the lower half of the address of the TSS, which is the address below 4 GiB only: never
    where the kernel is linked. -/
theorem tssBase_eq_iff (h : GdtRun tss gdt) :
    (tssBase gdt = tss ↔ tss.toNat < 2 ^ 32) ∧ (2 ^ 64 - 2 ^ 31 ≤ tss.toNat → tssBase gdt ≠ tss) := by
  obtain ⟨hlow, hsix⟩ := h.inv
  have hzero : (gdtStart 6).bits = 0 := rfl
  have hbase : (tssBase gdt).toNat = tss.toNat % 2 ^ 32 := by
    rw [tssBase, hsix, hzero, hlow.systemBase, BitVec.toNat_setWidth, BitVec.toNat_setWidth]
    omega
  have hiff : tssBase gdt = tss ↔ tss.toNat < 2 ^ 32 := by
    rw [← BitVec.toNat_inj, hbase]
    omega
  refine ⟨hiff, fun htop heq => ?_⟩
  have := hiff.mp heq
  omega

end

theorem tssBase_eq_iff_sample : ∃ gdt, gdtInit 0x10000 gdtStart = some gdt ∧ tssBase gdt = 0x10000 :=
  ⟨_, rfl, (tssBase_eq_iff (.init rfl)).1.mpr (by decide)⟩

/-- The processor looks for a TSS in the kernel's image below 4 GiB. -/
theorem tssBase_truncated : ∃ gdt, gdtInit 0xffffffff80010000 gdtStart = some gdt ∧ tssBase gdt = 0x80010000 ∧
    tssBase gdt ≠ 0xffffffff80010000 :=
  ⟨_, rfl, by decide, by decide⟩

end Neobird64
