import Neobird64.Theorems.MapPage
import Neobird64.Lib.LastWrite

/-! Runs of `vmm_map_page`. The last-level entries after a run are those before it with the entries of
    the run written over them, the last one to each page winning; and a run returns when three blocks
    are left for each page table that it misses. -/

namespace Neobird64
open State Paging PathTree

/-- The arguments of a call of `vmm_map_page`. -/
structure MapOp where
  va : Word
  pa : Word
  flags : Word

/-- The page that the call maps, and the entry that it writes. -/
def MapOp.write (op : MapOp) : Nat × Word := (vpn op.va, op.pa ||| op.flags)

/-- The calls `ops` of `vmm_map_page`, in order. -/
def mapAll (pageMap : Word) (ops : List MapOp) (s : State) : Except Halt State :=
  ops.foldlM (fun s op => vmmMapPage s pageMap op.va op.pa op.flags) s

section
variable {s s' : State} {root : Nat} {pageMap va pa flags q p i : Word} {ops ops' : List MapOp} {f : Nat → Word}

theorem mapAll_append : mapAll pageMap (ops ++ ops') s = mapAll pageMap ops s >>= mapAll pageMap ops' := by
  rw [mapAll, List.foldlM_append]
  rfl

/-! ### Only memory changes -/

theorem getLowerTable_onlyMem (h : getLowerTable s p i = .ok (q, s')) : OnlyMem s s' := by
  have halloc := pmmAllocBlock_onlyMem (s := s)
  simp only [getLowerTable] at h
  split at h
  · cases h
    exact OnlyMem.refl s
  · split at h
    · cases h
    · simp only [Except.ok.injEq, Prod.mk.injEq] at h
      rw [← h.2]
      exact (halloc.trans OnlyMem.memset).trans OnlyMem.store64

theorem getPt_onlyMem (h : getPt s p va = .ok (q, s')) : OnlyMem s s' := by
  simp only [getPt] at h
  obtain ⟨⟨q₁, s₁⟩, h₁, h⟩ := Loop.bind_eq_ok.mp h
  have o₁ := getLowerTable_onlyMem h₁
  dsimp only at h
  split at h
  · cases h
    exact o₁
  obtain ⟨⟨q₂, s₂⟩, h₂, h⟩ := Loop.bind_eq_ok.mp h
  have o₂ := o₁.trans (getLowerTable_onlyMem h₂)
  dsimp only at h
  split at h
  · cases h
    exact o₂
  obtain ⟨⟨q₃, s₃⟩, h₃, h⟩ := Loop.bind_eq_ok.mp h
  have o₃ := o₂.trans (getLowerTable_onlyMem h₃)
  dsimp only at h
  split at h <;> cases h <;> exact o₃

theorem vmmMapPage_onlyMem (h : vmmMapPage s pageMap va pa flags = .ok s') : OnlyMem s s' := by
  simp only [vmmMapPage] at h
  obtain ⟨⟨q, s₁⟩, h₁, h⟩ := Loop.bind_eq_ok.mp h
  dsimp only at h
  split at h
  · cases h
  · cases h
    exact (getPt_onlyMem h₁).trans OnlyMem.store64

theorem vmmFreePage_onlyMem (h : vmmFreePage s pageMap va = .ok s') : OnlyMem s s' := by
  simp only [vmmFreePage] at h
  obtain ⟨⟨q, s₁⟩, h₁, h⟩ := Loop.bind_eq_ok.mp h
  dsimp only at h
  split at h
  · cases h
  · cases h
    exact ((getPt_onlyMem h₁).trans OnlyMem.mmapUnset).trans OnlyMem.store64

theorem mapAll_onlyMem (h : mapAll pageMap ops s = .ok s') : OnlyMem s s' :=
  Loop.foldlM_inv (OnlyMem s) (fun _ _ _ _ h₁ h₂ => h₁.trans (vmmMapPage_onlyMem h₂)) (OnlyMem.refl s) h

/-! ### The entries after a run -/

theorem mapAll_extends (wf : WellFormed s root) (h : mapAll (tableVirt s root) ops s = .ok s') : Extends root s s' := by
  refine Loop.foldlM_inv (Extends root s) (fun t op t' _ ht hop => ?_) (Extends.refl wf) h
  rw [← ht.only.tableVirt] at hop
  exact ht.trans (vmmMapPage_extends ht.wf hop)

theorem mapAll_leaf (wf : WellFormed s root) (h : mapAll (tableVirt s root) ops s = .ok s')
    (hf : ∀ va, leaf s.mem root va = f (vpn va)) (va : Word) :
    leaf s'.mem root va = LastWrite.apply (ops.map MapOp.write) f (vpn va) := by
  induction ops generalizing s f with
  | nil =>
    cases h
    exact hf va
  | cons op ops ih =>
    rw [mapAll, List.foldlM_cons] at h
    obtain ⟨s₁, hop, h⟩ := Loop.bind_eq_ok.mp h
    have ext := vmmMapPage_extends wf hop
    rw [← ext.only.tableVirt] at h
    rw [List.map_cons, LastWrite.apply_cons]
    refine ih ext.wf h fun va' => ?_
    rw [vmmMapPage_leaf wf hop, hf]
    by_cases hv : vpn va' = vpn op.va
    · rw [if_pos hv, MapOp.write, hv, Function.update_self]
    · rw [if_neg hv, MapOp.write, Function.update_of_ne hv]

/-- When all calls for a page agree, one of them is enough to know its entry. -/
theorem mapAll_leaf_of_agree {op : MapOp} {e : Word} (wf : WellFormed s root)
    (h : mapAll (tableVirt s root) ops s = .ok s') (hop : op ∈ ops) (hv : vpn op.va = vpn va)
    (hagree : ∀ op ∈ ops, vpn op.va = vpn va → op.pa ||| op.flags = e) : leaf s'.mem root va = e := by
  rw [mapAll_leaf (f := fun v => leaf s.mem root (BitVec.ofNat 64 (v * 4096))) wf h leaf_eq_vpn]
  refine LastWrite.apply_of_agree (List.mem_map_of_mem hop) hv fun w hw hk => ?_
  obtain ⟨op', hop', rfl⟩ := List.mem_map.mp hw
  exact hagree op' hop' hk

/-! ### When a run returns -/

/-- The paths to the page tables of `ops` that do not exist yet. -/
def missing (m : Memory) (root : Nat) (ops : List MapOp) : Finset (List (Fin 512)) :=
  (ops.map fun op => upper op.va).toFinset.filter fun path => follow (child m) root path = none

theorem mem_missing {m : Memory} {path : List (Fin 512)} : path ∈ missing m root ops ↔
    (∃ op ∈ ops, upper op.va = path) ∧ follow (child m) root path = none := by
  rw [missing, Finset.mem_filter, List.mem_toFinset, List.mem_map]

/-- A run misses no more page tables than it uses. -/
theorem card_missing_le {m : Memory} {P : Finset (List (Fin 512))} (h : ∀ op ∈ ops, upper op.va ∈ P) :
    (missing m root ops).card ≤ P.card := by
  refine Finset.card_le_card fun path hpath => ?_
  obtain ⟨⟨op, hop, rfl⟩, -⟩ := mem_missing.mp hpath
  exact h op hop

/-- A run takes three blocks at most for each page table that it misses, and returns when there are as many. -/
theorem mapAll_ok (wf : WellFormed s root) (hh : HhdmOk s) (h0 : 0 ∉ s.clear)
    (hcard : 3 * (missing s.mem root ops).card ≤ s.clear.card) : ∃ s', mapAll (tableVirt s root) ops s = .ok s' ∧
      s.clear.card ≤ s'.clear.card + 3 * (missing s.mem root ops).card := by
  induction ops generalizing s with
  | nil => exact ⟨s, rfl, Nat.le_add_right _ _⟩
  | cons op ops ih =>
    have hlen : (upper op.va).length = 3 := rfl
    -- What is missing after the first call was missing before it.
    have hsub : ∀ {s₁}, Extends root s s₁ → missing s₁.mem root ops ⊆ missing s.mem root (op :: ops) := by
      intro s₁ ext path hpath
      obtain ⟨⟨op', hop', rfl⟩, hnone⟩ := mem_missing.mp hpath
      refine mem_missing.mpr ⟨⟨op', List.mem_cons_of_mem _ hop', rfl⟩, ?_⟩
      cases ht : follow (child s.mem) root (upper op'.va) with
      | none => rfl
      | some t =>
        rw [(ext.kept (upper op'.va) t ⟨le_of_eq rfl, ht⟩).2] at hnone
        cases hnone
    obtain ⟨s₁, hop, hcard₁, hdrop⟩ : ∃ s₁, vmmMapPage s (tableVirt s root) op.va op.pa op.flags = .ok s₁ ∧
        3 * (missing s₁.mem root ops).card ≤ s₁.clear.card ∧
        s.clear.card + 3 * (missing s₁.mem root ops).card ≤ s₁.clear.card + 3 * (missing s.mem root (op :: ops)).card := by
      cases ht : follow (child s.mem) root (upper op.va) with
      | some t =>
        obtain ⟨s₁, hop, hclear⟩ := vmmMapPage_ok_of_table op.pa op.flags wf hh ht
        refine ⟨s₁, hop, ?_⟩
        have hle := Finset.card_le_card (hsub (vmmMapPage_extends wf hop))
        rw [hclear]
        exact ⟨by omega, by omega⟩
      | none =>
        have hmem : upper op.va ∈ missing s.mem root (op :: ops) :=
          mem_missing.mpr ⟨⟨op, List.mem_cons_self, rfl⟩, ht⟩
        have hpos := Finset.card_pos.mpr ⟨_, hmem⟩
        obtain ⟨s₁, hop, hclear⟩ := vmmMapPage_ok op.va op.pa op.flags wf hh h0 (by omega)
        refine ⟨s₁, hop, ?_⟩
        obtain ⟨t, s₂, ext, -, ht', hs₁⟩ := vmmMapPage_eq wf hop
        have hfound : follow (child s₁.mem) root (upper op.va) = some t := by
          rw [hs₁]
          exact ((table_storeLeaf ext.wf.tablesOk ht').mpr ⟨hlen.le, ht'⟩).2
        have hlt := Finset.card_lt_card ((Finset.ssubset_iff_of_subset (hsub (vmmMapPage_extends wf hop))).mpr
          ⟨_, hmem, fun h => by rw [(mem_missing.mp h).2] at hfound; cases hfound⟩)
        exact ⟨by omega, by omega⟩
    have ext := vmmMapPage_extends wf hop
    obtain ⟨s', h, hlast⟩ := ih ext.wf (ext.only.hhdmOk hh) (fun h => h0 (ext.clear h)) hcard₁
    rw [ext.only.tableVirt] at h
    refine ⟨s', ?_, by omega⟩
    rw [mapAll, List.foldlM_cons, hop]
    exact h

end

end Neobird64
