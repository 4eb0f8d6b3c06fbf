import Neobird64.Lib.Paging
import Neobird64.Lib.PathTree

/-! The tables below a top-level table as a tree of frames. In a tree whose upper entries grant every
    right, the walk depends on the last-level entry only; writing one of those changes one page, and
    linking a cleared table changes none. -/

namespace Paging
open PathTree

/-- The table below entry `i` of the table at `t`. -/
def child (m : Memory) (t : Nat) (i : Fin 512) : Option Nat :=
  if present (entry m t i) then some (frame (entry m t i)) else none

/-- `p` leads from the top-level table at `root` to the table at `t`. -/
def Table (m : Memory) (root : Nat) (p : List (Fin 512)) (t : Nat) : Prop :=
  p.length ≤ 3 ∧ follow (child m) root p = some t

/-- The last-level entry for the page of `va`, 0 when there is no table for it. -/
def leaf (m : Memory) (root : Nat) (va : BitVec 64) : Entry :=
  ((follow (child m) root (upper va)).map fun t => entry m t (index va 12)).getD 0

/-- An upper-level entry that leads to a table and restricts nothing. -/
structure Grants (e : Entry) : Prop where
  writable : writable e = true
  user : user e = true
  small : pageSize e = false
  exec : noExec e = false

/-- The tables below `root` are distinct frames, and the entries that link them grant every right. -/
structure PageTree (m : Memory) (root : Nat) : Prop where
  aligned : root % 4096 = 0
  unique : Unique (child m) root 3
  grants : ∀ p t i, p.length < 3 → follow (child m) root p = some t → present (entry m t i) → Grants (entry m t i)

/-- The tables below `root` are distinct frames. -/
structure TableTree (m : Memory) (root : Nat) : Prop where
  aligned : root % 4096 = 0
  unique : Unique (child m) root 3

theorem PageTree.tableTree {m : Memory} {root : Nat} (h : PageTree m root) : TableTree m root := ⟨h.aligned, h.unique⟩

/-! ### Entries in memory -/

section
variable {m m' : Memory} {root t t' f : Nat} {i j : Fin 512} {e : Entry} {p q : List (Fin 512)} {va va' : BitVec 64}

theorem entry_congr (h : ∀ a, t ≤ a → a < t + 4096 → m' a = m a) : entry m' t i = entry m t i :=
  Memory.read64_congr fun a ha ha' => h a (by omega) (by omega)

theorem entry_zero (h : ∀ a, t ≤ a → a < t + 4096 → m a = 0) : entry m t i = 0 :=
  Memory.read64_zero fun a ha ha' => h a (by omega) (by omega)

theorem entry_write64 (ht : t % 4096 = 0) (ht' : t' % 4096 = 0) :
    entry (m.write64 (t + 8 * i) e) t' j = if t' = t ∧ j = i then e else entry m t' j := by
  split
  · rename_i h
    obtain ⟨rfl, rfl⟩ := h
    exact Memory.read64_write64 _ _ _
  · rename_i h
    refine Memory.read64_congr fun a ha ha' => Memory.write64_of_outside ?_
    by_contra hin
    refine h ⟨by omega, Fin.ext ?_⟩
    omega

@[simp] theorem present_zero : present 0#64 = false := rfl

theorem child_of_present (h : present (entry m t i) = true) : child m t i = some (frame (entry m t i)) := by
  rw [child, if_pos h]

theorem child_of_not_present (h : present (entry m t i) = false) : child m t i = none := by
  rw [child, if_neg (by simp [h])]

theorem child_congr (h : entry m' t i = entry m t i) : child m' t i = child m t i := by
  rw [child, child, h]

theorem child_mod {x : Nat} (h : child m t i = some x) : x % 4096 = 0 := by
  unfold child at h
  split at h
  · cases h
    exact frame_mod _
  · cases h

theorem Table.mod (hr : root % 4096 = 0) (h : Table m root p t) : t % 4096 = 0 := by
  obtain ⟨-, h⟩ := h
  rcases List.eq_nil_or_concat p with rfl | ⟨q, i, rfl⟩
  · cases h
    exact hr
  · rw [List.concat_eq_append, follow_concat] at h
    obtain ⟨x, -, hx⟩ := Option.bind_eq_some_iff.mp h
    exact child_mod hx

theorem table_nil : Table m root [] root := ⟨by simp, rfl⟩

theorem PageTree.unique_table (h : PageTree m root) (p q : List (Fin 512)) (t : Nat) (hp : Table m root p t)
    (hq : Table m root q t) : p = q :=
  h.unique p q t hp.1 hq.1 hp.2 hq.2

/-! ### The walk -/

theorem leaf_of_table (h : follow (child m) root (upper va) = some t) : leaf m root va = entry m t (index va 12) := by
  rw [leaf, h]
  rfl

theorem leaf_of_none (h : follow (child m) root (upper va) = none) : leaf m root va = 0 := by
  rw [leaf, h]
  rfl

theorem exists_table_of_leaf (h : leaf m root va ≠ 0) : ∃ t, follow (child m) root (upper va) = some t := by
  cases hf : follow (child m) root (upper va) with
  | some t => exact ⟨t, rfl⟩
  | none => exact absurd (leaf_of_none hf) h

theorem tableEntry_eq_some (h : tableEntry m t i = some e) : entry m t i = e ∧ child m t i = some (frame e) := by
  unfold tableEntry at h
  dsimp only at h
  split at h
  · rename_i hpr
    rw [Bool.and_eq_true] at hpr
    obtain rfl := Option.some.inj h
    exact ⟨rfl, child_of_present hpr.1⟩
  · cases h

/-- A walk that succeeds goes through the page table of `va` to a present entry. -/
theorem walk_eq_some {tr : Translation} (h : walk m root va = some tr) :
    (∃ t, follow (child m) root (upper va) = some t) ∧ present (leaf m root va) = true ∧
      tr.page = frame (leaf m root va) := by
  unfold walk at h
  obtain ⟨e4, h4, h⟩ := Option.bind_eq_some_iff.mp h
  obtain ⟨e3, h3, h⟩ := Option.bind_eq_some_iff.mp h
  obtain ⟨e2, h2, h⟩ := Option.bind_eq_some_iff.mp h
  have ht : follow (child m) root (upper va) = some (frame e2) := by
    rw [upper, follow, (tableEntry_eq_some h4).2, Option.bind_some, follow, (tableEntry_eq_some h3).2, Option.bind_some,
      follow, (tableEntry_eq_some h2).2, Option.bind_some, follow_nil]
  have hleaf : leaf m root va = entry m (frame e2) (index va 12) := leaf_of_table ht
  simp only [← hleaf] at h
  by_cases hpr : present (leaf m root va) = true
  · rw [if_pos hpr, Option.some.injEq] at h
    exact ⟨⟨_, ht⟩, hpr, by rw [← h]⟩
  · rw [if_neg hpr] at h
    cases h

/-- The walk reads upper-level entries, and the last-level entry of `va`. -/
theorem walk_congr
    (hupper : ∀ q x j, q.length < 3 → follow (child m) root q = some x → entry m' x j = entry m x j)
    (hleaf : ∀ x, follow (child m) root (upper va) = some x → entry m' x (index va 12) = entry m x (index va 12)) :
    walk m' root va = walk m root va := by
  have step : ∀ {q x j}, q.length < 3 → follow (child m) root q = some x → tableEntry m' x j = tableEntry m x j :=
    fun {q x j} hq hx => by rw [tableEntry, tableEntry, hupper q x j hq hx]
  have next : ∀ {q x j e'}, follow (child m) root q = some x → tableEntry m x j = some e' →
      follow (child m) root (q ++ [j]) = some (frame e') := fun hx he => by
    rw [follow_concat_of_eq hx, (tableEntry_eq_some he).2]
  unfold walk
  simp only [Option.bind_eq_bind]
  rw [step (q := []) (by simp) rfl]
  cases h4 : tableEntry m root (index va 39) with
  | none => rw [Option.bind_none, Option.bind_none]
  | some e4 =>
    have f4 := next (q := []) rfl h4
    rw [Option.bind_some, Option.bind_some, step (by simp) f4]
    cases h3 : tableEntry m (frame e4) (index va 30) with
    | none => rw [Option.bind_none, Option.bind_none]
    | some e3 =>
      have f3 := next f4 h3
      rw [Option.bind_some, Option.bind_some, step (by simp) f3]
      cases h2 : tableEntry m (frame e3) (index va 21) with
      | none => rw [Option.bind_none, Option.bind_none]
      | some e2 => rw [Option.bind_some, Option.bind_some, hleaf _ (next f3 h2)]

theorem PageTree.tableEntry (h : PageTree m root) (hp : p.length < 3) (ht : follow (child m) root p = some t) :
    Paging.tableEntry m t i = if present (entry m t i) then some (entry m t i) else none := by
  unfold Paging.tableEntry
  by_cases hpr : present (entry m t i) = true
  · simp [hpr, (h.grants p t i hp ht hpr).small]
  · simp [hpr]

/-- In a page tree a page has the rights of its last-level entry. -/
theorem PageTree.walk (h : PageTree m root) (va : BitVec 64) : walk m root va =
    if present (leaf m root va) then
      some {
        page := frame (leaf m root va)
        writable := writable (leaf m root va)
        user := user (leaf m root va)
        noExec := noExec (leaf m root va)
        leaf := leaf m root va }
    else none := by
  have step : ∀ {q t i}, q.length < 3 → follow (child m) root q = some t →
      (present (entry m t i) = true ∧ Paging.tableEntry m t i = some (entry m t i) ∧ Grants (entry m t i) ∧
        follow (child m) root (q ++ [i]) = some (frame (entry m t i))) ∨
      (Paging.tableEntry m t i = none ∧ follow (child m) root (q ++ [i]) = none) := by
    intro q t i hq ht
    rw [h.tableEntry hq ht, follow_concat_of_eq ht]
    by_cases hpr : present (entry m t i) = true
    · exact Or.inl ⟨hpr, by simp [hpr], h.grants q t i hq ht hpr, child_of_present hpr⟩
    · exact Or.inr ⟨by simp [hpr], child_of_not_present (by simpa using hpr)⟩
  have missing : ∀ {q r : List (Fin 512)}, upper va = q ++ r → follow (child m) root q = none → leaf m root va = 0 := by
    intro q r hqr hq
    rw [leaf_of_none]
    rw [hqr, follow_append, hq, Option.bind_none]
  unfold Paging.walk
  rcases step (i := index va 39) (q := []) (by simp) rfl with ⟨-, he4, g4, h4⟩ | ⟨he4, h4⟩
  · rcases step (i := index va 30) (by simp) h4 with ⟨-, he3, g3, h3⟩ | ⟨he3, h3⟩
    · rcases step (i := index va 21) (by simp) h3 with ⟨-, he2, g2, h2⟩ | ⟨he2, h2⟩
      · rw [leaf_of_table h2]
        simp only [he4, he3, he2, Option.bind_eq_bind, Option.bind_some, g4.writable, g3.writable, g2.writable,
          g4.user, g3.user, g2.user, g4.exec, g3.exec, g2.exec, Bool.true_and, Bool.false_or]
      · simp [he4, he3, he2, missing (r := []) rfl h2]
    · simp [he4, he3, missing (r := [index va 21]) rfl h3]
  · simp [he4, missing (r := [index va 30, index va 21]) rfl h4]

/-- The page of a translation is the one in its last-level entry. -/
theorem PageTree.page_eq (_ : PageTree m root) {va : BitVec 64} {tr : Translation} (hw : Paging.walk m root va = some tr) :
    tr.page = frame (leaf m root va) :=
  (walk_eq_some hw).2.2

/-! ### Writing outside of the tables -/

section
variable (h : PageTree m root) (hm : ∀ p t a, Table m root p t → t ≤ a → a < t + 4096 → m' a = m a)
include hm

theorem follow_eq_of_tables (hp : p.length ≤ 3) : follow (child m') root p = follow (child m) root p :=
  follow_congr (fun q x hq hx _ => child_congr (entry_congr fun a => hm q x a ⟨hq.le, hx⟩)) hp

theorem table_iff_of_tables : Table m' root p t ↔ Table m root p t :=
  and_congr_right fun hp => by rw [follow_eq_of_tables hm hp]

include h

theorem PageTree.congr : PageTree m' root where
  aligned := h.aligned
  unique p q x hp hq hpx hqx := by
    rw [follow_eq_of_tables hm hp] at hpx
    rw [follow_eq_of_tables hm hq] at hqx
    exact h.unique p q x hp hq hpx hqx
  grants p t i hp ht hpr := by
    rw [follow_eq_of_tables hm hp.le] at ht
    have he := entry_congr (i := i) fun a => hm p t a ⟨hp.le, ht⟩
    rw [he] at hpr ⊢
    exact h.grants p t i hp ht hpr

end

/-! ### Writing a last-level entry -/

/-- A table of the last level holds no entry of an upper level. -/
theorem TableTree.ne_of_length (h : TableTree m root) (hp : p.length = 3) (ht : follow (child m) root p = some t)
    (hq : q.length < 3) (ht' : follow (child m) root q = some t') : t' ≠ t := by
  rintro rfl
  have := congrArg List.length (h.unique p q t' (by omega) (by omega) ht ht')
  omega

section
variable (h : TableTree m root) (hp : p.length = 3) (ht : follow (child m) root p = some t)
include h hp ht

theorem TableTree.entry_write (hq : q.length ≤ 3) (ht' : follow (child m) root q = some t') :
    entry (m.write64 (t + 8 * i) e) t' j = if t' = t ∧ j = i then e else entry m t' j :=
  entry_write64 (Table.mod h.aligned ⟨hp.le, ht⟩) (Table.mod h.aligned ⟨hq, ht'⟩)

theorem TableTree.entry_write_upper (hq : q.length < 3) (ht' : follow (child m) root q = some t') :
    entry (m.write64 (t + 8 * i) e) t' j = entry m t' j := by
  rw [h.entry_write hp ht hq.le ht', if_neg]
  rintro ⟨rfl, -⟩
  exact h.ne_of_length hp ht hq ht' rfl

theorem TableTree.follow_write (hq : q.length ≤ 3) :
    follow (child (m.write64 (t + 8 * i) e)) root q = follow (child m) root q :=
  follow_congr (fun _ _ hr hx _ => child_congr (h.entry_write_upper hp ht hr hx)) hq

theorem TableTree.write : TableTree (m.write64 (t + 8 * i) e) root where
  aligned := h.aligned
  unique := fun q r x hq hr hqx hrx => by
    rw [h.follow_write hp ht hq] at hqx
    rw [h.follow_write hp ht hr] at hrx
    exact h.unique q r x hq hr hqx hrx

end

theorem PageTree.write (h : PageTree m root) (hp : p.length = 3) (ht : follow (child m) root p = some t) :
    PageTree (m.write64 (t + 8 * i) e) root where
  aligned := h.aligned
  unique := (h.tableTree.write hp ht).unique
  grants := fun q x j hq hqx => by
    rw [h.tableTree.follow_write hp ht hq.le] at hqx
    rw [h.tableTree.entry_write_upper hp ht hq hqx]
    exact h.grants q x j hq hqx

theorem leaf_congr_vpn (hv : vpn va' = vpn va) : leaf m root va' = leaf m root va := by
  rw [leaf, leaf, (vpn_eq_iff.mp hv).1, (vpn_eq_iff.mp hv).2]

/-- The entry of an address is that of the first address of its page. -/
theorem leaf_eq_vpn (va : BitVec 64) : leaf m root va = leaf m root (BitVec.ofNat 64 (vpn va * 4096)) := by
  refine leaf_congr_vpn ?_
  rw [vpn, vpn, BitVec.toNat_ofNat]
  omega

theorem TableTree.leaf_write (h : TableTree m root) (ht : follow (child m) root (upper va) = some t) :
    leaf (m.write64 (t + 8 * index va 12) e) root va' = if vpn va' = vpn va then e else leaf m root va' := by
  have hlen : ∀ va, (upper va).length = 3 := fun _ => rfl
  have hfollow := h.follow_write (i := index va 12) (e := e) (hlen va) ht (hlen va').le
  cases ht' : follow (child m) root (upper va') with
  | none =>
    rw [leaf_of_none (hfollow.trans ht'), leaf_of_none ht', if_neg]
    intro hv
    rw [(vpn_eq_iff.mp hv).1, ht] at ht'
    cases ht'
  | some t' =>
    rw [leaf_of_table (hfollow.trans ht'), leaf_of_table ht', h.entry_write (hlen va) ht (hlen va').le ht']
    refine if_congr ?_ rfl rfl
    rw [vpn_eq_iff]
    refine and_congr_left fun _ => ⟨?_, fun hu => ?_⟩
    · rintro rfl
      exact h.unique _ _ _ (hlen va').le (hlen va).le ht' ht
    · rw [hu, ht] at ht'
      cases ht'
      rfl

/-! ### Linking a table -/

/-- `m'` is `m` with a cleared table linked by the entry `e` at entry `i` of the table at `t`. -/
structure Linked (m m' : Memory) (root : Nat) (p : List (Fin 512)) (t : Nat) (i : Fin 512) (e : Entry) : Prop where
  depth : p.length < 3
  parent : follow (child m) root p = some t
  unused : present (entry m t i) = false
  fresh : ∀ q, q.length ≤ 3 → follow (child m) root q ≠ some (frame e)
  present : present e = true
  grants : Grants e
  linked : entry m' t i = e
  bare : ∀ j, entry m' (frame e) j = 0
  same : ∀ q z j, q.length ≤ 3 → follow (child m) root q = some z → ¬(z = t ∧ j = i) → entry m' z j = entry m z j

namespace Linked
variable (h : PageTree m root) (l : Linked m m' root p t i e)
include l

theorem link : Link (child m) (child m') root 3 p t i (frame e) where
  depth := l.depth
  parent := l.parent
  unused := child_of_not_present l.unused
  fresh := l.fresh
  linked := by rw [child, l.linked, if_pos l.present]
  bare j := child_of_not_present (by rw [l.bare]; exact present_zero)
  same q z j hq hz hne := child_congr (l.same q z j hq.le hz hne)

include h

theorem follow_eq (hq : q.length ≤ 3) :
    follow (child m') root q = if q = p ++ [i] then some (frame e) else follow (child m) root q :=
  l.link.follow_eq h.unique hq

theorem pageTree : PageTree m' root where
  aligned := h.aligned
  unique := l.link.unique h.unique
  grants q x j hq hqx hpr := by
    rw [l.follow_eq h hq.le] at hqx
    split at hqx
    · cases hqx
      rw [l.bare] at hpr
      exact absurd hpr (by simp)
    · by_cases hxt : x = t ∧ j = i
      · obtain ⟨rfl, rfl⟩ := hxt
        rw [l.linked]
        exact l.grants
      · rw [l.same q x j hq.le hqx hxt] at hpr ⊢
        exact h.grants q x j hq hqx hpr

/-- A new table translates nothing. -/
theorem leaf_eq (va : BitVec 64) : leaf m' root va = leaf m root va := by
  have hlen : (upper va).length = 3 := rfl
  have hfollow := l.follow_eq h hlen.le
  split at hfollow
  · rename_i hu
    have hnone : follow (child m) root (upper va) = none := by
      rw [hu, follow_concat_of_eq l.parent]
      exact child_of_not_present l.unused
    rw [leaf_of_table hfollow, leaf_of_none hnone, l.bare]
  · cases ht : follow (child m) root (upper va) with
    | none => rw [leaf_of_none (hfollow.trans ht), leaf_of_none ht]
    | some x =>
      rw [leaf_of_table (hfollow.trans ht), leaf_of_table ht]
      refine l.same _ _ _ hlen.le ht fun ⟨hx, _⟩ => ?_
      exact h.tableTree.ne_of_length hlen ht l.depth l.parent hx.symm

end Linked
end

end Paging
