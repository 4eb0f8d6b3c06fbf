import Neobird64.Theorems.ReadOnly

/-! What the map that `vmm_init` loads allows. The kernel's own addresses are writable or executable, never both,
    and closed to user mode; the HHDM is writable and, but for the framebuffer, executable, and the low bits
    of an entry's base open it to user mode. -/

namespace Neobird64
open State Paging PathTree

/-- Code can be written to `va` and executed there. -/
def WritableCode (s : State) (va : Word) : Prop :=
  (Low va ∨ High va) ∧ ∃ tr, walk s.mem s.cr3.toNat va = some tr ∧ tr.writable = true ∧ tr.noExec = false

/-- Programs in user mode can read `va`. -/
def UserReads (s : State) (va : Word) : Prop :=
  (Low va ∨ High va) ∧ ∃ tr, walk s.mem s.cr3.toNat va = some tr ∧ tr.user = true

/-- `va` is the HHDM address of a page that `vmm_init` maps for `sp` last. -/
def HhdmPage (b : Boot) (s : State) (va : Word) (sp : Span) : Prop :=
  ∃ P, lastSpan s P = some sp ∧ va.toNat / 4096 = b.hhdm.toNat / 4096 + P

section
variable {s : State} {b : Boot} {d : Devices} {M : List MemmapEntry} {k : KernelAddress} {s₀ : State} {sp : Span}
variable {va : Word} {mem : Memory}

theorem span_flags_user (hsp : sp ∈ spans s) : user sp.flags = false := by
  have hrw : user (PTE_BIT_PRESENT ||| PTE_BIT_READ_WRITE) = false := by decide
  have hrwx : user (PTE_BIT_PRESENT ||| PTE_BIT_READ_WRITE ||| PTE_BIT_EXECUTE_DISABLE) = false := by decide
  rcases mem_spans.mp hsp with rfl | ⟨e, -, he⟩ | rfl
  · exact hrw
  · obtain ⟨fl, hfl, rfl⟩ := entrySpan_eq_some.mp he
    cases ht : e.type <;> rw [ht] at hfl <;> cases hfl
    exacts [hrw, hrw, hrw, hrwx]
  · exact hrw

namespace HhdmLayout
variable (h : HhdmLayout b s) (hB : Booted b M k s₀ s)
include h

theorem high_of_hhdmPage (hp : HhdmPage b s va sp) : High va := by
  obtain ⟨P, -, hva⟩ := hp
  have hhigh := h.high
  have hal := h.aligned
  rw [High] at hhigh ⊢
  omega

include hB

/-- The rights at an HHDM address: those of the last span over its page, and what the base of the span adds. -/
theorem walk_hhdmPage (hp : HhdmPage b s va sp) : ∃ tr, walk s.mem s.cr3.toNat va = some tr ∧ tr.writable = true ∧
    tr.noExec = noExec sp.flags ∧ tr.user = user sp.base := by
  have hhigh := h.high_of_hhdmPage hp
  obtain ⟨P, hlast, hva⟩ := hp
  obtain ⟨hsp, hvisits⟩ := lastSpan_mem hlast
  obtain ⟨a, ha, rfl⟩ := Span.holds_of_visits hvisits
  obtain ⟨pa, hpa, hleaf⟩ := h.leaf_of_lastSpan hB hsp ha hlast
  obtain ⟨-, hphys, -⟩ := h.window sp hsp a ha
  obtain ⟨-, hpres, hwrite⟩ := span_flags hsp
  have hpres' : present (pa ||| sp.flags) = true := by
    rw [present, BitVec.getLsbD_or, ← present, ← present, hpres, Bool.or_true]
  have hwrite' : writable (pa ||| sp.flags) = true := by
    rw [writable, BitVec.getLsbD_or, ← writable, ← writable, hwrite, Bool.or_true]
  have hexec : noExec (pa ||| sp.flags) = noExec sp.flags := by
    have hbit : pa.getLsbD 63 = false := by
      rw [BitVec.getLsbD, Nat.testBit_eq_decide_div_mod_eq]
      exact decide_eq_false (by omega)
    rw [noExec, BitVec.getLsbD_or, hbit, Bool.false_or, noExec]
  have huser : user (pa ||| sp.flags) = user sp.base := by
    have hflags : sp.flags.getLsbD 2 = false := span_flags_user hsp
    rw [user, BitVec.getLsbD_or, hflags, Bool.or_false, user, BitVec.getLsbD, BitVec.getLsbD,
      Nat.testBit_eq_decide_div_mod_eq, Nat.testBit_eq_decide_div_mod_eq, decide_eq_decide]
    omega
  rw [hB.walk_congr_vpn ((h.vpn_direct hsp ha hhigh).mpr hva), hB.cr3, hB.wf.tree.walk, hleaf, if_pos hpres']
  exact ⟨_, rfl, hwrite', hexec, huser⟩

/-- Every page of the higher half that is mapped is one of a section or of the HHDM. -/
theorem mapped_high (hK : KernelOk k b.sections) (hhigh : High va) {tr : Translation}
    (htr : walk s.mem s.cr3.toNat va = some tr) :
    (∃ pa flags, tr = pageWith pa flags ∧ (writable flags = false ∨ noExec flags = true) ∧ user flags = false) ∨
      ∃ sp, HhdmPage b s va sp := by
  by_cases ht : InSection b.sections.textStart b.sections.textEnd va
  · rw [h.walk_text hB hK ht] at htr
    cases htr
    exact Or.inl ⟨_, _, rfl, Or.inl (by decide), by decide⟩
  by_cases hr : InSection b.sections.rodataStart b.sections.rodataEnd va
  · rw [h.walk_rodata hB hK hr] at htr
    cases htr
    exact Or.inl ⟨_, _, rfl, Or.inl (by decide), by decide⟩
  by_cases hd : InSection b.sections.dataStart b.sections.dataEnd va
  · rw [h.walk_data hB hK hd] at htr
    cases htr
    exact Or.inl ⟨_, _, rfl, Or.inr (by decide), by decide⟩
  right
  obtain ⟨sp, hsp, a, ha, hva⟩ : ∃ sp ∈ spans s, ∃ a, sp.Holds a ∧ va.toNat / 4096 = (b.hhdm.toNat + a) / 4096 := by
    by_contra hno
    push Not at hno
    rw [h.walk_outside hB hhigh ht hr hd hno] at htr
    cases htr
  have hal := h.aligned
  have hva' : va.toNat / 4096 = b.hhdm.toNat / 4096 + a / 4096 := by omega
  cases hlast : lastSpan s (a / 4096) with
  | some sp' => exact ⟨sp', a / 4096, hlast, hva'⟩
  | none =>
    rw [hB.walk_congr_vpn ((h.vpn_direct hsp ha hhigh).mpr hva'),
      hB.walk_of_leaf_zero (h.leaf_of_no_span hB hsp ha hlast)] at htr
    cases htr

/-- The identity map can be written to but not executed. -/
theorem mapped_low (hlow : Low va) {tr : Translation} (htr : walk s.mem s.cr3.toNat va = some tr) :
    tr.noExec = true ∧ tr.user = false := by
  by_cases hin : 0x1000 ≤ va.toNat ∧ va.toNat < 2 ^ 32
  · rw [h.walk_identity hB hin.1 hin.2] at htr
    cases htr
    exact ⟨by simp only [pageWith]; decide, by simp only [pageWith]; decide⟩
  · rw [hB.walk_of_leaf_zero (h.leaf_low hB hlow (by omega))] at htr
    cases htr

end HhdmLayout

/-- Code can be written and executed at the HHDM addresses of pages that no framebuffer was mapped to last, and
    nowhere else. User mode reads the HHDM addresses of pages whose last entry has bit 2 in its base, and
    nothing else. -/
theorem rights_iff (hb : b.memmap = some M) (hk : b.kernelAddress = some k) (hM : UsableOk M) (hK : KernelOk k b.sections)
    (h : HhdmLayout b s) (hs : startMemory b d mem = .ok s) (va : Word) :
    (WritableCode s va ↔ ∃ sp, HhdmPage b s va sp ∧ noExec sp.flags = false) ∧
      (UserReads s va ↔ ∃ sp, HhdmPage b s va sp ∧ user sp.base = true) := by
  obtain ⟨s₀, -, hB⟩ := startMemory_booted hM hb hk (startMemory_memmap hM hb hs ▸ h.lengthsOk) hs
  refine ⟨⟨?_, ?_⟩, ⟨?_, ?_⟩⟩
  · rintro ⟨hlow | hhigh, tr, htr, hwrite, hexec⟩
    · rw [(h.mapped_low hB hlow htr).1] at hexec
      cases hexec
    · rcases h.mapped_high hB hK hhigh htr with ⟨pa, flags, rfl, hw | hx, -⟩ | ⟨sp, hp⟩
      · exact absurd (hw.symm.trans hwrite) (by decide)
      · exact absurd (hx.symm.trans hexec) (by decide)
      · obtain ⟨tr', htr', -, hexec', -⟩ := h.walk_hhdmPage hB hp
        rw [htr] at htr'
        cases htr'
        exact ⟨sp, hp, hexec' ▸ hexec⟩
  · rintro ⟨sp, hp, hexec⟩
    obtain ⟨tr, htr, hwrite, hexec', -⟩ := h.walk_hhdmPage hB hp
    exact ⟨Or.inr (h.high_of_hhdmPage hp), tr, htr, hwrite, hexec'.trans hexec⟩
  · rintro ⟨hlow | hhigh, tr, htr, huser⟩
    · rw [(h.mapped_low hB hlow htr).2] at huser
      cases huser
    · rcases h.mapped_high hB hK hhigh htr with ⟨pa, flags, rfl, -, hu⟩ | ⟨sp, hp⟩
      · exact absurd (hu.symm.trans huser) (by decide)
      · obtain ⟨tr', htr', -, -, huser'⟩ := h.walk_hhdmPage hB hp
        rw [htr] at htr'
        cases htr'
        exact ⟨sp, hp, huser' ▸ huser⟩
  · rintro ⟨sp, hp, huser⟩
    obtain ⟨tr, htr, -, -, huser'⟩ := h.walk_hhdmPage hB hp
    exact ⟨Or.inr (h.high_of_hhdmPage hp), tr, htr, huser'.trans huser⟩

end

/-- Usable memory can be executed at its HHDM address, and user mode does not read it there. -/
theorem rights_iff_sample : ∃ s, startMemory (sampleBoot acpiMap) acpiDevices acpiMemory = .ok s ∧
    WritableCode s 0xffff800000900000 ∧ ¬UserReads s 0xffff800000900000 := by
  obtain ⟨s₀, s₁, s, h⟩ := startMemory_acpiMap
  obtain ⟨-, -, hspans, -⟩ := h.booted
  obtain ⟨hcode, huser⟩ := rights_iff rfl rfl acpiMap_like.ok kernelOk_sample (acpiMap_windows.layout hspans) h.start
    0xffff800000900000
  have hlast : lastSpan s 0x900 = some ⟨0x100000, 0x4000000, PTE_BIT_PRESENT ||| PTE_BIT_READ_WRITE⟩ := by
    rw [lastSpan, hspans]
    rfl
  refine ⟨s, h.start, hcode.mpr ⟨_, ⟨0x900, hlast, by decide⟩, by decide⟩, fun hreads => ?_⟩
  obtain ⟨sp, ⟨P, hP, hva⟩, hbase⟩ := huser.mp hreads
  have hpage : P = 0x900 := by
    have hva' : (0xffff800000900000 : Word).toNat / 4096 = (sampleBoot acpiMap).hhdm.toNat / 4096 + 0x900 := by decide
    omega
  rw [hpage, hlast] at hP
  cases hP
  exact absurd hbase (by decide)

end Neobird64
