import Neobird64.Theorems.AddressSpace

/-! The HHDM windows of entries that the boot protocol does not align. The loop over an entry steps from
    its raw base, so it misses the last page that the entry meets when base and length do not fit, and
    puts the low bits of the base into the flags of every page; a later span over the same page wins. -/

namespace Neobird64
open State Paging PathTree

/-- The last of the spans whose loop maps the page `P`. -/
def lastSpan (s : State) (P : Nat) : Option Span := (spans s).reverse.find? fun sp => sp.visits P

/-- What the entries of a span have besides the address of the page. -/
def Span.extra (sp : Span) : Word := (sp.base &&& 0xfff) ||| sp.flags

/-- The byte at physical address `a` is reached at its HHDM address, writable, and its entry has no bit
    besides the address and `flags`. -/
def Reached (b : Boot) (s : State) (flags : Word) (a : Nat) : Prop :=
  ∃ tr, walk s.mem s.cr3.toNat (BitVec.ofNat 64 (b.hhdm.toNat + a)) = some tr ∧
    tr.page + (b.hhdm.toNat + a) % 4096 = a ∧ tr.writable = true ∧ tr.leaf &&& ~~~(addrMask ||| flags) = 0

section
variable {s s' : State} {b : Boot} {d : Devices} {M : List MemmapEntry} {k : KernelAddress} {s₀ s₁ : State} {sp sp₀ : Span}
variable {op : MapOp} {pa flags flags' : Word} {a P : Nat}

/-- The flags of a span grant reading and writing, and have no bit of the address field. -/
theorem span_flags (hsp : sp ∈ spans s) :
    sp.flags &&& addrMask = 0 ∧ present sp.flags = true ∧ writable sp.flags = true := by
  have hcases : sp.flags = PTE_BIT_PRESENT ||| PTE_BIT_READ_WRITE ∨
      sp.flags = PTE_BIT_PRESENT ||| PTE_BIT_READ_WRITE ||| PTE_BIT_EXECUTE_DISABLE := by
    rcases mem_spans.mp hsp with rfl | ⟨e, -, he⟩ | rfl
    · exact Or.inl rfl
    · obtain ⟨fl, hfl, rfl⟩ := entrySpan_eq_some.mp he
      cases ht : e.type <;> rw [ht] at hfl <;> cases hfl <;> simp
    · exact Or.inl rfl
  rcases hcases with h | h <;> rw [h] <;> decide

theorem lastSpan_mem (h : lastSpan s P = some sp) : sp ∈ spans s ∧ sp.visits P = true := by
  refine ⟨List.mem_reverse.mp (List.mem_of_find?_eq_some h), ?_⟩
  have hvisits := List.find?_some h
  exact hvisits

/-! ### The entry of a page -/

namespace HhdmLayout
variable (h : HhdmLayout b s)
include h

/-- A span maps a page exactly when it visits it, from its base modulo the page size. -/
theorem visits_of_op (hsp₀ : sp₀ ∈ spans s) (ha : sp₀.Holds a) (hsp : sp ∈ spans s) (hop : op ∈ sp.ops b.hhdm)
    (hv : vpn op.va = vpn (BitVec.ofNat 64 (b.hhdm.toNat + a))) :
    sp.visits (a / 4096) = true ∧ op.pa.toNat = a / 4096 * 4096 + sp.base.toNat % 4096 ∧ op.flags = sp.flags := by
  obtain ⟨i, -, hlt, hva, hpa, hfl⟩ := h.mem_ops hsp hop
  have hal := h.aligned
  rw [vpn_eq_iff_of_high (h.opHigh hsp hop) (h.directHigh hsp₀ ha), hva, h.directVa hsp₀ ha] at hv
  refine ⟨?_, by omega, hfl⟩
  simp only [Span.visits, decide_eq_true_eq]
  omega

theorem op_of_visits (hsp₀ : sp₀ ∈ spans s) (ha : sp₀.Holds a) (hsp : sp ∈ spans s)
    (hv : sp.visits (a / 4096) = true) :
    ∃ op ∈ sp.ops b.hhdm, vpn op.va = vpn (BitVec.ofNat 64 (b.hhdm.toNat + a)) := by
  simp only [Span.visits, decide_eq_true_eq] at hv
  have hal := h.aligned
  have hop := Span.ops_mem sp b.hhdm (i := a / 4096 - sp.base.toNat / 4096) (by omega)
  refine ⟨_, hop, (vpn_eq_iff_of_high (h.opHigh hsp hop) (h.directHigh hsp₀ ha)).mpr ?_⟩
  have hwin := (h.window sp₀ hsp₀ a ha).1
  rw [h.directVa hsp₀ ha, BitVec.toNat_add, BitVec.toNat_add, BitVec.toNat_ofNat]
  omega

/-- No call for the kernel or the low 4 GiB is for the HHDM address of a byte of a span. -/
theorem span_not_rest (hsp₀ : sp₀ ∈ spans s) (ha : sp₀.Holds a) (hop : op ∈ kernelOps k b.sections ++ identityOps) :
    vpn op.va ≠ vpn (BitVec.ofNat 64 (b.hhdm.toNat + a)) := by
  have hhigh := h.directHigh hsp₀ ha
  intro hv
  rcases List.mem_append.mp hop with hop | hop
  · obtain ⟨-, hlo, hhi⟩ := h.mem_kernelOps hop
    have hwin := (h.window sp₀ hsp₀ a ha).2.2
    have htop := alignUp_mod (x := b.sections.dataEnd)
    have hdown := alignDown_toNat (x := b.sections.textStart)
    rw [vpn_eq_iff_of_high (h.sectionHigh hlo) hhigh, h.directVa hsp₀ ha] at hv
    omega
  · exact vpn_ne_of_low_of_high (low_of_identity hop) hhigh hv

variable (hB : Booted b M k s₀ s)
include hB

/-- Only the spans decide on the HHDM address of a byte of a span. -/
theorem leaf_spans (hsp₀ : sp₀ ∈ spans s) (ha : sp₀.Holds a) :
    leaf s.mem s.root (BitVec.ofNat 64 (b.hhdm.toNat + a)) =
      LastWrite.apply ((spans s).flatMap fun sp => (sp.ops b.hhdm).map MapOp.write) (fun _ => 0)
        (vpn (BitVec.ofNat 64 (b.hhdm.toNat + a))) := by
  have hal : s.hhdmoffset.toNat % 4096 = 0 := by
    rw [hB.hhdm]
    exact h.aligned
  have hflat := flatMap_spans hal
  have hinit : (initOps k b.sections s).map MapOp.write =
      ((bitmapSpan s).ops s.hhdmoffset ++ entryOps s).map MapOp.write ++
        ((kernelOps k b.sections ++ identityOps).map MapOp.write ++ [lapicOp s].map MapOp.write) := by
    simp only [initOps, List.map_append, List.append_assoc]
  rw [hB.entries, hinit, LastWrite.apply_append_middle, ← List.map_append, List.append_assoc, ← hflat,
    List.map_flatMap, hB.hhdm]
  rintro w hw
  obtain ⟨op, hop, rfl⟩ := List.mem_map.mp hw
  exact h.span_not_rest hsp₀ ha hop

theorem leaf_of_lastSpan (hsp₀ : sp₀ ∈ spans s) (ha : sp₀.Holds a) (hlast : lastSpan s (a / 4096) = some sp) :
    ∃ pa : Word, pa.toNat = a / 4096 * 4096 + sp.base.toNat % 4096 ∧
      leaf s.mem s.root (BitVec.ofNat 64 (b.hhdm.toNat + a)) = pa ||| sp.flags := by
  obtain ⟨hsp, hvisits⟩ := lastSpan_mem hlast
  obtain ⟨op, hop, hv⟩ := h.op_of_visits hsp₀ ha hsp hvisits
  obtain ⟨-, hpa, hfl⟩ := h.visits_of_op hsp₀ ha hsp hop hv
  refine ⟨op.pa, hpa, ?_⟩
  rw [h.leaf_spans hB hsp₀ ha]
  refine LastWrite.apply_flatMap_of_last (fun sp' hsp' hnv w hw hk => ?_) hlast (List.mem_map_of_mem hop) hv
    fun w hw hk => ?_
  · obtain ⟨op', hop', rfl⟩ := List.mem_map.mp hw
    rw [(h.visits_of_op hsp₀ ha hsp' hop' hk).1] at hnv
    cases hnv
  · obtain ⟨op', hop', rfl⟩ := List.mem_map.mp hw
    obtain ⟨-, hpa', hfl'⟩ := h.visits_of_op hsp₀ ha hsp hop' hk
    have heq : op'.pa = op.pa := BitVec.eq_of_toNat_eq (by omega)
    rw [MapOp.write, heq, hfl']

theorem leaf_of_no_span (hsp₀ : sp₀ ∈ spans s) (ha : sp₀.Holds a) (hlast : lastSpan s (a / 4096) = none) :
    leaf s.mem s.root (BitVec.ofNat 64 (b.hhdm.toNat + a)) = 0 := by
  rw [h.leaf_spans hB hsp₀ ha]
  refine LastWrite.apply_of_not_mem fun w hw hk => ?_
  obtain ⟨sp, hsp, hw⟩ := List.mem_flatMap.mp hw
  obtain ⟨op, hop, rfl⟩ := List.mem_map.mp hw
  exact List.find?_eq_none.mp hlast sp (List.mem_reverse.mpr hsp) (h.visits_of_op hsp₀ ha hsp hop hk).1

/-- A byte of a span is reached exactly when the last span over its page brings no other bits. -/
theorem reached_iff (hsp₀ : sp₀ ∈ spans s) (ha : sp₀.Holds a) :
    Reached b s flags a ↔ ∃ sp, lastSpan s (a / 4096) = some sp ∧ sp.extra &&& ~~~flags = 0 := by
  rw [Reached, hB.cr3, hB.wf.tree.walk]
  cases hlast : lastSpan s (a / 4096) with
  | none =>
    rw [h.leaf_of_no_span hB hsp₀ ha hlast]
    exact iff_of_false (fun ⟨_, htr, _⟩ => nomatch htr) (fun ⟨_, hsp, _⟩ => nomatch hsp)
  | some sp =>
    obtain ⟨pa, hpa, hleaf⟩ := h.leaf_of_lastSpan hB hsp₀ ha hlast
    obtain ⟨hmask, hpres, hwrite⟩ := span_flags (lastSpan_mem hlast).1
    obtain ⟨-, hphys, -⟩ := h.window sp₀ hsp₀ a ha
    have hal := h.aligned
    have hpres' : present (pa ||| sp.flags) = true := by
      rw [present, BitVec.getLsbD_or, ← present, ← present, hpres, Bool.or_true]
    have hwrite' : writable (pa ||| sp.flags) = true := by
      rw [writable, BitVec.getLsbD_or, ← writable, ← writable, hwrite, Bool.or_true]
    have hframe : frame (pa ||| sp.flags) = a / 4096 * 4096 := by
      rw [frame_or (by omega) hmask]
      omega
    have hlow : pa &&& 0xfff = sp.base &&& 0xfff := by
      have hand : ∀ x : Word, (x &&& 0xfff).toNat = x.toNat % 4096 := fun x => by
        rw [BitVec.toNat_and]
        exact Nat.and_two_pow_sub_one_eq_mod x.toNat 12
      apply BitVec.eq_of_toNat_eq
      rw [hand, hand]
      omega
    have hbits : (pa ||| sp.flags) &&& ~~~(addrMask ||| flags) = sp.extra &&& ~~~flags := by
      rw [BitVec.not_or, ← BitVec.and_assoc, or_and_not_addrMask (by omega) hmask, hlow, Span.extra]
    rw [hleaf, if_pos hpres']
    constructor
    · rintro ⟨tr, htr, -, -, hextra⟩
      cases htr
      exact ⟨sp, rfl, hbits ▸ hextra⟩
    · rintro ⟨sp', hsp', hextra⟩
      cases hsp'
      refine ⟨_, rfl, ?_, hwrite', hbits.trans hextra⟩
      simp only
      omega

end HhdmLayout

/-! ### The windows of all entries -/

/-- Every byte of an entry that `vmm_init` maps is reached at its HHDM address, with the rights of its
    loop. -/
def DirectlyMapped (b : Boot) (M : List MemmapEntry) (s : State) : Prop :=
  ∀ e ∈ M, ∀ flags, entryFlags e.type = some flags → ∀ a, e.Holds a → Reached b s flags a

variable {mem : Memory}

/-- The entries are reached exactly when the last span over each of their pages brings no bit that their
    own loop does not pass: its base adds none and its flags are among theirs. -/
theorem directlyMapped_iff (hM : UsableOk M) (hb : b.memmap = some M) (hinit : pmmInit b (entryState mem) = .ok s₀)
    (hacpi : initAcpi b d s₀ = .ok s₁) (h : HhdmLayout b s₁) (hvmm : vmmInit b s₁ = .ok s) :
    DirectlyMapped b M s ↔ ∀ e ∈ M, ∀ flags, entryFlags e.type = some flags → ∀ a, e.Holds a →
      ∃ sp, lastSpan s₁ (a / 4096) = some sp ∧ sp.extra &&& ~~~flags = 0 := by
  obtain ⟨k, hB, hspans, -⟩ := startMemory_parts hM hb hinit hacpi h hvmm
  have L := h.congr hspans
  have hlast : ∀ P, lastSpan s₁ P = lastSpan s P := fun P => by rw [lastSpan, lastSpan, hspans]
  have step : ∀ e ∈ M, ∀ flags, entryFlags e.type = some flags → ∀ a, e.Holds a →
      (Reached b s flags a ↔ ∃ sp, lastSpan s₁ (a / 4096) = some sp ∧ sp.extra &&& ~~~flags = 0) := by
    intro e he flags hfl a ha
    have hsp : (⟨e.base, e.length, flags⟩ : Span) ∈ spans s :=
      mem_spans.mpr (Or.inr (Or.inl ⟨e, hB.memmap ▸ he, entrySpan_eq_some.mpr ⟨flags, hfl, rfl⟩⟩))
    rw [hlast]
    exact L.reached_iff hB hsp ha
  exact ⟨fun hd e he flags hfl a ha => (step e he flags hfl a ha).mp (hd e he flags hfl a ha),
    fun hc e he flags hfl a ha => (step e he flags hfl a ha).mpr (hc e he flags hfl a ha)⟩

end

/-- Both entries of `lowMap` start and end at a page boundary. -/
theorem directlyMapped_sample : ∃ s, startMemory (sampleBoot lowMap) acpiDevices lowMemory = .ok s ∧
    DirectlyMapped (sampleBoot lowMap) lowMap s := by
  obtain ⟨s₀, s₁, s, h⟩ := startMemory_lowMap
  refine ⟨s, h.start, (directlyMapped_iff lowMap_like.ok rfl h.init h.acpi h.layout h.vmm).mpr fun e he flags hfl a ha => ?_⟩
  have hflags : flags = PTE_BIT_PRESENT ||| PTE_BIT_READ_WRITE := by
    have htype : ∀ e ∈ lowMap, entryFlags e.type = some (PTE_BIT_PRESENT ||| PTE_BIT_READ_WRITE) := by decide
    exact Option.some.inj (hfl.symm.trans (htype e he))
  -- The entry's own span visits the page.
  have hvisited : ∃ sp ∈ lowSpans, sp.visits (a / 4096) = true := by
    have haligned : ∀ e ∈ lowMap, e.base.toNat % 4096 = 0 ∧ ∃ sp ∈ lowSpans, sp.base = e.base ∧ sp.length = e.length := by
      decide
    obtain ⟨hmod, sp, hsp, hbase, hlength⟩ := haligned e he
    have ha₁ := ha.1
    have ha₂ := ha.2
    refine ⟨sp, hsp, ?_⟩
    simp only [Span.visits, decide_eq_true_eq, hbase, hlength]
    omega
  have hextra : ∀ sp ∈ lowSpans, sp.extra = PTE_BIT_PRESENT ||| PTE_BIT_READ_WRITE := by decide
  obtain ⟨sp, hsp, hvisits⟩ := hvisited
  have hsome : (lastSpan s₁ (a / 4096)).isSome := by
    rw [lastSpan, List.find?_isSome, h.windows]
    exact ⟨sp, List.mem_reverse.mpr hsp, hvisits⟩
  obtain ⟨last, hlast⟩ := Option.isSome_iff_exists.mp hsome
  have hmem := (lastSpan_mem hlast).1
  rw [h.windows] at hmem
  refine ⟨last, hlast, ?_⟩
  rw [hextra last hmem, hflags]
  decide

/-- The entry from 0x4100800 to 0x4101800 meets two pages, and its loop maps the first of them only. -/
theorem last_page_unmapped : ∃ s, startMemory (sampleBoot acpiMap) acpiDevices acpiMemory = .ok s ∧
    ¬DirectlyMapped (sampleBoot acpiMap) acpiMap s ∧
    walk s.mem s.cr3.toNat (BitVec.ofNat 64 ((sampleBoot acpiMap).hhdm.toNat + 0x4101000)) = none := by
  obtain ⟨s₀, s₁, s, h⟩ := startMemory_acpiMap
  obtain ⟨k, hB, hspans, -⟩ := h.booted
  have L := acpiMap_windows.layout hspans
  have hsp : (⟨0x4100800, 0x1000, PTE_BIT_PRESENT ||| PTE_BIT_READ_WRITE⟩ : Span) ∈ spans s := by
    rw [hspans]
    simp [acpiSpans]
  have ha : (⟨0x4100800, 0x1000, PTE_BIT_PRESENT ||| PTE_BIT_READ_WRITE⟩ : Span).Holds 0x4101000 := ⟨by decide, by decide⟩
  have hlast : lastSpan s (0x4101000 / 4096) = none := by
    rw [lastSpan, hspans]
    decide
  refine ⟨s, h.start, fun hd => ?_, ?_⟩
  · have hreach := hd ⟨0x4100800, 0x1000, .acpiReclaimable⟩ (by decide) _ rfl 0x4101000 ⟨by decide, by decide⟩
    obtain ⟨sp, hsome, -⟩ := (L.reached_iff hB hsp ha).mp hreach
    rw [hlast] at hsome
    cases hsome
  · rw [hB.cr3, hB.wf.tree.walk, L.leaf_of_no_span hB hsp ha hlast]
    rfl

end Neobird64
