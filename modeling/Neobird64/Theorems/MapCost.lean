import Neobird64.Theorems.TableBuild
import Neobird64.Theorems.FreePage
import Mathlib.Data.Fintype.Sum

/-! What a run of `vmm_map_page` costs: one block, the least ones first, for each page table that it misses.
    So a run returns exactly when there are as many, and neither the order of its calls nor a call that
    is repeated changes what it leaves behind. -/

namespace Neobird64
open State Paging PathTree OnDemand

/-- The tables below the top level that the calls `ops` visit, by their paths. -/
def opPaths (ops : List MapOp) : List (List (Fin 512)) := ops.flatMap fun op => tablePaths op.va

/-- Those that do not exist yet. -/
def missingTables (m : Memory) (root : Nat) (ops : List MapOp) : Finset (List (Fin 512)) :=
  (opPaths ops).toFinset.filter fun p => follow (child m) root p = none

/-- `vmm_map_page` builds the page map at `root` while the map of the boot loader is loaded, as in `vmm_init`. -/
structure Building (s : State) (root : Nat) : Prop where
  wf : WellFormed s root
  loaded : s.cr3 = 0
  hhdm : HhdmOk s
  zero : 0 ∉ s.clear

/-- Two runs panic with the same message, or leave the same free blocks, tables at the same paths and the same
    translation of every address. -/
inductive SameMap (root : Nat) : Except Halt State → Except Halt State → Prop
  | ok {s t : State} (clear : s.clear = t.clear)
      (tables : ∀ p, (∃ x, Table s.mem root p x) ↔ ∃ x, Table t.mem root p x)
      (walk : ∀ va, walk s.mem root va = walk t.mem root va) : SameMap root (.ok s) (.ok t)
  | error {e : Halt} : SameMap root (.error e) (.error e)

section
variable {s s' : State} {root : Nat} {T : Finset (List (Fin 512))} {p : List (Fin 512)} {op : MapOp}
variable {ops ops' : List MapOp}

theorem tablePaths_length {va : Word} (h : p ∈ tablePaths va) : p.length ≤ 3 := by
  simp only [tablePaths, upper, List.mem_cons, List.not_mem_nil, or_false] at h
  rcases h with rfl | rfl | rfl <;> simp

theorem opPaths_length (h : p ∈ opPaths ops) : p.length ≤ 3 := by
  obtain ⟨op, -, hp⟩ := List.mem_flatMap.mp h
  exact tablePaths_length hp

theorem ne_nil_of_mem_opPaths (h : p ∈ opPaths ops) : p ≠ [] := by
  obtain ⟨op, -, hp⟩ := List.mem_flatMap.mp h
  rintro rfl
  simp [tablePaths, upper] at hp

/-- What the calls miss is what their requests miss. -/
theorem TablesAt.missing_eq (hT : TablesAt s root T) : OnDemand.missing ⟨s.clear, T⟩ (opPaths ops) = missingTables s.mem root ops := by
  ext p
  simp only [OnDemand.missing, missingTables, Finset.mem_sdiff, Finset.mem_filter, List.mem_toFinset]
  refine and_congr_right fun hp => ?_
  rw [hT, Option.eq_none_iff_forall_ne_some, not_exists]
  exact forall_congr' fun t => not_congr (and_iff_right (opPaths_length hp))

/-- A run is one sequence of requests for tables. -/
theorem mapAll_build (wf : WellFormed s root) (hh : HhdmOk s) (h0 : 0 ∉ s.clear) (hT : TablesAt s root T)
    (ops : List MapOp) :
    (∃ st s', buildAll ⟨s.clear, T⟩ (opPaths ops) = some st ∧ mapAll (tableVirt s root) ops s = .ok s' ∧
      s'.clear = st.free ∧ TablesAt s' root st.built) ∨
    (buildAll ⟨s.clear, T⟩ (opPaths ops) = none ∧ mapAll (tableVirt s root) ops s = .error noTableBlock) := by
  induction ops generalizing s T with
  | nil => exact Or.inl ⟨⟨s.clear, T⟩, s, rfl, rfl, rfl, hT⟩
  | cons op ops ih =>
    have hpaths : opPaths (op :: ops) = tablePaths op.va ++ opPaths ops := List.flatMap_cons
    rw [hpaths, buildAll_append, mapAll, List.foldlM_cons]
    rcases vmmMapPage_build wf hh h0 hT op.va op.pa op.flags with ⟨st, s₁, hst, hop, hclear, hT₁⟩ | ⟨hst, hop⟩
    · have ext := vmmMapPage_extends wf hop
      have hst₁ : st = ⟨s₁.clear, st.built⟩ := by rw [hclear]
      rw [hst, hop, Option.bind_some, Loop.ok_bind, hst₁, ← ext.only.tableVirt]
      exact ih ext.wf (ext.only.hhdmOk hh) (fun h => h0 (ext.clear h)) hT₁
    · rw [hst, hop]
      exact Or.inr ⟨rfl, rfl⟩

/-- A run returns exactly when there is a block for each table that it misses, and takes the least ones; else
    it panics. -/
theorem mapAll_cost (wf : WellFormed s root) (hh : HhdmOk s) (h0 : 0 ∉ s.clear) (ops : List MapOp) :
    ((∃ s', mapAll (tableVirt s root) ops s = .ok s') ↔ (missingTables s.mem root ops).card ≤ s.clear.card) ∧
    (∀ s', mapAll (tableVirt s root) ops s = .ok s' → s'.clear = rest (missingTables s.mem root ops).card s.clear) ∧
    (∀ e, mapAll (tableVirt s root) ops s = .error e → e = noTableBlock) := by
  obtain ⟨T, hT⟩ := exists_tablesAt s root
  have hbuild := mapAll_build wf hh h0 hT ops
  rw [buildAll_eq, hT.missing_eq] at hbuild
  rcases hbuild with ⟨st, s', hst, hmap, hclear, -⟩ | ⟨hst, hmap⟩
  · split at hst
    · rename_i hle
      cases hst
      refine ⟨⟨fun _ => hle, fun _ => ⟨s', hmap⟩⟩, fun s'' h => ?_, fun e h => ?_⟩
      · rw [hmap] at h
        cases h
        exact hclear
      · rw [hmap] at h
        cases h
    · cases hst
  · split at hst
    · cases hst
    · rename_i hlt
      rw [hmap]
      refine ⟨⟨fun ⟨_, h⟩ => ?_, fun h => absurd h hlt⟩, fun _ h => ?_, fun e h => (Except.error.inj h).symm⟩
      all_goals cases h

/-- In a page map that is one cleared table, every table below it is missing. -/
theorem NewMap.missingTables {n : Nat} (h : NewMap s s' n) (ops : List MapOp) :
    missingTables s'.mem s'.root ops = (opPaths ops).toFinset := by
  refine Finset.filter_true_of_mem fun p hp => ?_
  have hp' := List.mem_toFinset.mp hp
  cases ht : follow (child s'.mem) s'.root p with
  | none => rfl
  | some t =>
    rw [h.root] at ht
    have hnil := ((h.tables p t).mp ⟨opPaths_length hp', ht⟩).1
    exact absurd hnil (ne_nil_of_mem_opPaths hp')

/-- While `vmm_init` builds its page map, a run of `vmm_map_page` returns exactly when there is a block for each table that it
    misses, and takes the least ones; else it panics. -/
theorem mapAll_returns_iff (h : Building s root) (ops : List MapOp) :
    ((∃ s', mapAll (tableVirt s root) ops s = .ok s') ↔ (missingTables s.mem root ops).card ≤ s.clear.card) ∧
    (∀ s', mapAll (tableVirt s root) ops s = .ok s' →
      s'.clear = rest (missingTables s.mem root ops).card s.clear ∧ Building s' root) ∧
    (∀ e, mapAll (tableVirt s root) ops s = .error e → e = noTableBlock) := by
  obtain ⟨hreturns, hclear, herror⟩ := mapAll_cost h.wf h.hhdm h.zero ops
  refine ⟨hreturns, fun s' hs' => ⟨hclear s' hs', ?_⟩, herror⟩
  have ext := mapAll_extends h.wf hs'
  exact ⟨ext.wf, ext.only.cr3.trans h.loaded, ext.only.hhdmOk h.hhdm, fun hmem => h.zero (ext.clear hmem)⟩

/-- The calls for two pages, which share their page table. -/
def sampleOps : List MapOp := [⟨0xffff900000000000, 0x900000, 3⟩, ⟨0xffff900000001000, 0x901000, 3⟩]

theorem building_sample : ∃ s₀ s, pmmInit (sampleBoot sampleMap) (entryState fun _ => 0) = .ok s₀ ∧
    newPageMap { s₀ with hhdmoffset := (sampleBoot sampleMap).hhdm } = .ok s ∧ Building s s.root ∧
    (∀ ops, missingTables s.mem s.root ops = (opPaths ops).toFinset) ∧ s.clear.card = 14079 := by
  obtain ⟨s₀, s, n, hinit, hmap, hnew, hh, h0, hcard⟩ := newMap_sample fun _ => 0
  have hcr3 : s.cr3 = 0 := by
    rw [hnew.cr3]
    exact (pmmInit_onlyMem rfl hinit).cr3
  refine ⟨s₀, s, hinit, hmap, ⟨?_, hcr3, hh, h0⟩, hnew.missingTables, hcard⟩
  rw [hnew.root]
  exact hnew.wf

/-- They miss three tables. -/
theorem mapAll_returns_iff_sample : ∃ s₀ s, pmmInit (sampleBoot sampleMap) (entryState fun _ => 0) = .ok s₀ ∧
    newPageMap { s₀ with hhdmoffset := (sampleBoot sampleMap).hhdm } = .ok s ∧ (missingTables s.mem s.root sampleOps).card = 3 ∧
    3 ≤ s.clear.card ∧ ∃ s', mapAll (tableVirt s s.root) sampleOps s = .ok s' ∧ s'.clear = rest 3 s.clear := by
  obtain ⟨s₀, s, hinit, hmap, h, hmissing, hcard⟩ := building_sample
  have hthree : (missingTables s.mem s.root sampleOps).card = 3 := by
    rw [hmissing]
    decide +kernel
  obtain ⟨hreturns, hclear, -⟩ := mapAll_returns_iff h sampleOps
  rw [hthree] at hreturns hclear
  obtain ⟨s', hs'⟩ := hreturns.mpr (by omega)
  exact ⟨s₀, s, hinit, hmap, hthree, by omega, s', hs', (hclear s' hs').1⟩

/-- Any two runs with the same calls, in whatever order and however often each one is made, do the same, when calls
    for one page agree on its entry. -/
theorem mapAll_order (h : Building s root) (hops : ∀ op, op ∈ ops ↔ op ∈ ops')
    (hagree : ∀ op ∈ ops, ∀ op' ∈ ops, vpn op.va = vpn op'.va → op.pa ||| op.flags = op'.pa ||| op'.flags) :
    SameMap root (mapAll (tableVirt s root) ops s) (mapAll (tableVirt s root) ops' s) := by
  obtain ⟨wf, -, hh, h0⟩ := h
  obtain ⟨T, hT⟩ := exists_tablesAt s root
  have hpaths : (opPaths ops).toFinset = (opPaths ops').toFinset := by
    ext p
    simp only [opPaths, List.mem_toFinset, List.mem_flatMap, hops]
  have hbuild := mapAll_build wf hh h0 hT ops
  rw [buildAll_congr hpaths] at hbuild
  rcases hbuild with ⟨st, s₁, hst, hmap, hclear, htables⟩ | ⟨hst, hmap⟩ <;>
    rcases mapAll_build wf hh h0 hT ops' with ⟨st', s₂, hst', hmap', hclear', htables'⟩ | ⟨hst', hmap'⟩ <;>
    rw [hst] at hst' <;> cases hst' <;> rw [hmap, hmap']
  · refine .ok (hclear.trans hclear'.symm) (fun p => ?_) fun va => ?_
    · rw [← htables p, htables' p]
    · have hwrites : ∀ w, w ∈ ops.map MapOp.write ↔ w ∈ ops'.map MapOp.write := fun w => by
        simp only [List.mem_map, hops]
      have hsame : ∀ w ∈ ops.map MapOp.write, ∀ w' ∈ ops.map MapOp.write, w.1 = w'.1 → w.2 = w'.2 := by
        simp only [List.mem_map]
        rintro _ ⟨op, hop, rfl⟩ _ ⟨op', hop', rfl⟩ hv
        exact hagree op hop op' hop' hv
      let pages := fun v => leaf s.mem root (BitVec.ofNat 64 (v * 4096))
      rw [(mapAll_extends wf hmap).wf.tree.walk, (mapAll_extends wf hmap').wf.tree.walk,
        mapAll_leaf (f := pages) wf hmap leaf_eq_vpn, mapAll_leaf (f := pages) wf hmap' leaf_eq_vpn,
        LastWrite.apply_congr_of_agree hwrites hsame]
  · exact .error

theorem mapAll_order_sample : ∃ s₀ s, pmmInit (sampleBoot sampleMap) (entryState fun _ => 0) = .ok s₀ ∧
    newPageMap { s₀ with hhdmoffset := (sampleBoot sampleMap).hhdm } = .ok s ∧
    SameMap s.root (mapAll (tableVirt s s.root) sampleOps s) (mapAll (tableVirt s s.root) (sampleOps.reverse ++ sampleOps) s) := by
  obtain ⟨s₀, s, hinit, hmap, h, -, -⟩ := building_sample
  exact ⟨s₀, s, hinit, hmap, mapAll_order h (fun op => by simp) (by decide)⟩

end

/-! ### `vmm_init` -/

section
variable {s s' s₀ s₁ : State} {b : Boot} {d : Devices} {k : KernelAddress} {n : Nat} {M : List MemmapEntry} {mem : Memory}

/-- `vmm_init` returns exactly when the bootloader gave the two addresses, block 0 is in use, and there is a block
    for the top-level table and one for each table below it that its mappings need. -/
theorem vmmInit_returns_iff (hap : PmmApart s) (hlen : LengthsOk s.memmap) (hwindow : b.hhdm.toNat + 2 ^ 43 ≤ 2 ^ 64) :
    (∃ s', vmmInit b s = .ok s') ↔ b.hhdm ≠ 0 ∧ 0 ∉ s.clear ∧ ∃ k, b.kernelAddress = some k ∧
      (opPaths (initOps k b.sections { s with hhdmoffset := b.hhdm })).toFinset.card + 1 ≤ s.clear.card := by
  have hap₁ : PmmApart { s with hhdmoffset := b.hhdm } := ⟨hap.clearApart, hap.count⟩
  -- The run of `vmm_map_page` after a top-level table was allocated.
  have run : ∀ {k s₁ n}, b.hhdm ≠ 0 → 0 ∉ s.clear → NewMap { s with hhdmoffset := b.hhdm } s₁ n →
      ((∃ s₂, mapAll s₁.kernelPageMap (initOps k b.sections s₁) s₁ = .ok s₂) ↔
        (opPaths (initOps k b.sections { s with hhdmoffset := b.hhdm })).toFinset.card + 1 ≤ s.clear.card) := by
    intro k s₁ n hne h0 hnm
    have hpos : 0 < b.hhdm.toNat := Nat.pos_of_ne_zero fun h => hne (BitVec.eq_of_toNat_eq h)
    have hops : initOps k b.sections s₁ = initOps k b.sections { s with hhdmoffset := b.hhdm } :=
      initOps_congr hnm.memmap hnm.pmmUsableAddr hnm.pmmBlockCount hnm.hhdmoffset hnm.lapicAddr
    have hclear : s₁.clear = s.clear.erase n := hnm.clear
    have hblock : n ∈ s.clear := hnm.block
    have hcard : s₁.clear.card + 1 = s.clear.card := by rw [hclear, Finset.card_erase_add_one hblock]
    have hwf : WellFormed s₁ s₁.root := by
      rw [hnm.root]
      exact hnm.wf
    have hiff := (mapAll_cost hwf (by rw [HhdmOk, hnm.hhdmoffset]; exact ⟨hpos, hwindow⟩)
      (by rw [hclear]; exact fun h => h0 (Finset.mem_of_mem_erase h)) (initOps k b.sections s₁)).1
    rw [tableVirt_root, hnm.missingTables, hops] at hiff
    rw [hops, hiff]
    omega
  constructor
  · rintro ⟨s', h⟩
    have hne : b.hhdm ≠ 0 := by
      intro h0
      simp only [vmmInit, if_pos h0] at h
      cases h
    obtain ⟨k, hk⟩ := vmmInit_kernelAddress h
    rw [vmmInit_eq hne hk hlen] at h
    obtain ⟨s₁, hnew, h⟩ := Loop.bind_eq_ok.mp h
    obtain ⟨s₂, hall, -⟩ := Loop.bind_eq_ok.mp h
    obtain ⟨n, hnm⟩ := newPageMap_newMap hap₁ hnew
    have h0 := zero_not_clear_of_newPageMap hap₁ hnew
    exact ⟨hne, h0, k, hk, (run hne h0 hnm).mp ⟨s₂, hall⟩⟩
  · rintro ⟨hne, h0, k, hk, hcard⟩
    obtain ⟨s₁, hnew⟩ := newPageMap_ok hap₁ h0 (Finset.card_pos.mp (show 0 < s.clear.card by omega))
    obtain ⟨n, hnm⟩ := newPageMap_newMap hap₁ hnew
    obtain ⟨s₂, hall⟩ := (run hne h0 hnm).mpr hcard
    exact ⟨_, by rw [vmmInit_eq hne hk hlen, hnew, Loop.ok_bind, hall, Loop.ok_bind]; rfl⟩

/-- `init_acpi` leaves the allocator as `pmm_init` has it. -/
theorem initAcpi_apart (hM : UsableOk M) (hb : b.memmap = some M) (hinit : pmmInit b (entryState mem) = .ok s₀)
    (hacpi : initAcpi b d s₀ = .ok s₁) : PmmApart s₁ ∧ s₁.memmap = M ∧ s₁.clear ⊆ usablePages M := by
  have ready := pmmInit_ready hM hb hinit
  have hap := ready.apart hM
  rw [initAcpi_globals hacpi]
  refine ⟨⟨hap.clearApart, hap.count⟩, ready.memmap, fun n hn => ?_⟩
  obtain ⟨hlt, hbit⟩ := mem_clear.mp hn
  exact ((ready.clear n hlt).mp hbit).1

theorem vmmInit_returns_iff_sample : ∃ s₀ s₁ k, pmmInit (sampleBoot acpiMap) (entryState acpiMemory) = .ok s₀ ∧
    initAcpi (sampleBoot acpiMap) acpiDevices s₀ = .ok s₁ ∧ (sampleBoot acpiMap).kernelAddress = some k ∧
    (opPaths (initOps k (sampleBoot acpiMap).sections { s₁ with hhdmoffset := (sampleBoot acpiMap).hhdm })).toFinset.card
      + 1 ≤ s₁.clear.card := by
  obtain ⟨s₀, s₁, s, h⟩ := startMemory_acpiMap
  obtain ⟨-, -, k, hk, hcard⟩ := (vmmInit_returns_iff (b := sampleBoot acpiMap)
    (initAcpi_apart acpiMap_like.ok rfl h.init h.acpi).1 h.layout.lengthsOk (by decide)).mp ⟨s, h.vmm⟩
  exact ⟨s₀, s₁, k, h.init, h.acpi, hk, hcard⟩

/-! ### The least memory -/

/-- The paths to the tables of the identity map: the page tables, the page directories and the table above them. -/
def identityPath : Fin 2048 ⊕ Fin 4 ⊕ Unit → List (Fin 512)
  | .inl r => [0, ⟨r / 512, by omega⟩, ⟨r % 512, by omega⟩]
  | .inr (.inl g) => [0, ⟨g, by omega⟩]
  | .inr (.inr ()) => [0]

theorem identityPath_injective : Function.Injective identityPath := by
  rintro (r | g | ⟨⟩) (r' | g' | ⟨⟩) h <;> simp only [identityPath, List.cons.injEq, Fin.mk.injEq, and_true, true_and,
    reduceCtorEq, and_false] at h
  · rw [show r = r' by omega]
  · rw [show g = g' by omega]
  · rfl

theorem identityPath_mem {sec : Sections} (i : Fin 2048 ⊕ Fin 4 ⊕ Unit) : identityPath i ∈ opPaths (initOps k sec s) := by
  -- The second page of each region of 2 MiB is mapped.
  have region : ∀ r : Nat, (hr : r < 2048) →
      ∀ p ∈ [[0], [0, ⟨r / 512, by omega⟩], [0, ⟨r / 512, by omega⟩, ⟨r % 512, by omega⟩]], p ∈ opPaths (initOps k sec s) := by
    intro r hr p hp
    obtain ⟨va, hva⟩ : ∃ va : Word, va.toNat = r * 2 ^ 21 + 4096 := ⟨BitVec.ofNat 64 (r * 2 ^ 21 + 4096), by
      rw [BitVec.toNat_ofNat]
      omega⟩
    have h39 : index va 39 = 0 := Fin.ext (by rw [index_toNat, hva, Fin.val_zero]; omega)
    have h30 : index va 30 = ⟨r / 512, by omega⟩ := Fin.ext (by rw [index_toNat, hva]; simp only; omega)
    have h21 : index va 21 = ⟨r % 512, by omega⟩ := Fin.ext (by rw [index_toNat, hva]; simp only; omega)
    rw [← h39, ← h30, ← h21] at hp
    obtain ⟨op, hop, rfl⟩ : ∃ op ∈ identityOps, op.va = va :=
      ⟨⟨va, va, PTE_BIT_PRESENT ||| PTE_BIT_READ_WRITE ||| PTE_BIT_EXECUTE_DISABLE⟩,
        mem_identityOps.mpr ⟨by simp only [hva]; omega, by simp only [hva]; omega, by simp only [hva]; omega, rfl, rfl⟩, rfl⟩
    exact List.mem_flatMap.mpr ⟨op, by simp only [initOps, List.mem_append, hop, true_or, or_true], hp⟩
  rcases i with r | g | ⟨⟩
  · exact region r r.isLt _ (by simp [identityPath])
  · have hg : (g * 512 : Nat) / 512 = g := by omega
    exact region (g * 512) (by omega) _ (by simp [identityPath, hg])
  · exact region 0 (by omega) _ (by simp [identityPath])

/-- The identity map of the low 4 GiB needs 2048 page tables, four page directories and one table above them. -/
theorem card_opPaths_initOps (k : KernelAddress) (sec : Sections) (s : State) :
    2053 ≤ (opPaths (initOps k sec s)).toFinset.card := by
  have hcard := Finset.card_le_card_of_injOn (s := Finset.univ) (t := (opPaths (initOps k sec s)).toFinset) identityPath
    (fun i _ => List.mem_toFinset.mpr (identityPath_mem i)) identityPath_injective.injOn
  simpa using hcard

/-- No machine with less than 2054 pages of usable memory gets through the sequence of `_start`. -/
theorem startMemory_usable (hM : UsableOk M) (hlen : LengthsOk M) (hb : b.memmap = some M)
    (hwindow : b.hhdm.toNat + 2 ^ 43 ≤ 2 ^ 64) (h : startMemory b d mem = .ok s) : 2054 ≤ (usablePages M).card := by
  obtain ⟨s₀, hinit, h⟩ := Loop.bind_eq_ok.mp h
  obtain ⟨s₁, hacpi, h⟩ := Loop.bind_eq_ok.mp h
  obtain ⟨hap, hmap, hsub⟩ := initAcpi_apart hM hb hinit hacpi
  obtain ⟨-, -, k, -, hcard⟩ := (vmmInit_returns_iff hap (by rw [hmap]; exact hlen) hwindow).mp ⟨s, h⟩
  have hneed := card_opPaths_initOps k b.sections { s₁ with hhdmoffset := b.hhdm }
  have hle := Finset.card_le_card hsub
  omega

theorem startMemory_usable_sample : (∃ s, startMemory (sampleBoot acpiMap) acpiDevices acpiMemory = .ok s) ∧
    2054 ≤ (usablePages acpiMap).card := by
  obtain ⟨s₀, s₁, s, h⟩ := startMemory_acpiMap
  obtain ⟨-, -, hspans, -⟩ := h.booted
  refine ⟨⟨s, h.start⟩, startMemory_usable acpiMap_like.ok ?_ rfl (by decide) h.start⟩
  have hlen := h.layout.lengthsOk
  rwa [(initAcpi_apart acpiMap_like.ok rfl h.init h.acpi).2.1] at hlen

end

end Neobird64
