import Neobird64.Theorems.IdtGates
import Neobird64.Theorems.Segments
import Neobird64.Theorems.TssBase

/-! Every processor that runs `gdt_init` writes the descriptors again, one store at a time, while the others load them. All
    store the same values, so there are two windows only: `ltr` finds the TSS busy behind another `ltr`, and entry 1 is no
    64-bit code segment between the two stores to its granularity. -/

namespace Neobird64
open X86 Trace

/-! ### The events so far -/

section

/-- The entries of `gdt` have numbers from 0 on. -/
local instance entryNeZero : NeZero 7 := ⟨by decide⟩

/-- Whether the last store to the granularity of entry 1 is the second one of `gdt_set_entry`, after a step. -/
def wholeAfter (whole : Bool) : SegStep → Bool
  | .init (.entry num (.granularity _)) => if num = 1 then false else whole
  | .init (.entry num (.orGranularity _)) => if num = 1 then true else whole
  | _ => whole

/-- Whether the access byte of the TSS descriptor has been stored since the last `ltr`, after a step. -/
def freshAfter (fresh : Bool) : SegStep → Bool
  | .init (.entry num (.access _)) => if num = 5 then true else fresh
  | .init (.load .ltr) => false
  | _ => fresh

end

section
variable {Cpu : Type}

def codeWhole (es : List (SegEvent Cpu)) : Bool := es.foldl (fun whole e => wholeAfter whole e.step) false

def tssFresh (es : List (SegEvent Cpu)) : Bool := es.foldl (fun fresh e => freshAfter fresh e.step) false

/-- The steps that come too early after the events `before`. -/
def Faults (before : List (SegEvent Cpu)) : SegStep → Prop
  | .init (.load .ltr) => tssFresh before = false
  | .init (.load (.retfq _)) | .interrupt _ | .iretq => codeWhole before = false
  | _ => False

/-- One of the steps of a processor came too early. -/
def Faulted (cpu : Cpu) (es : List (SegEvent Cpu)) : Prop :=
  ∃ before e after, es = before ++ e :: after ∧ e.cpu = cpu ∧ Faults before e.step

variable {es : List (SegEvent Cpu)} {e : SegEvent Cpu} {cpu : Cpu}

theorem codeWhole_concat : codeWhole (es ++ [e]) = wholeAfter (codeWhole es) e.step := by
  rw [codeWhole, List.foldl_append]
  rfl

theorem tssFresh_concat : tssFresh (es ++ [e]) = freshAfter (tssFresh es) e.step := by
  rw [tssFresh, List.foldl_append]
  rfl

theorem faulted_concat : Faulted cpu (es ++ [e]) ↔ Faulted cpu es ∨ e.cpu = cpu ∧ Faults es e.step := by
  constructor
  · rintro ⟨before, e', after, heq, hcpu, hf⟩
    rcases List.eq_nil_or_concat after with rfl | ⟨after, last, rfl⟩
    · obtain ⟨rfl, hlast⟩ := List.append_inj' heq rfl
      obtain rfl := List.singleton_inj.mp hlast
      exact Or.inr ⟨hcpu, hf⟩
    · have hsplit : es ++ [e] = (before ++ e' :: after) ++ [last] := by simpa using heq
      exact Or.inl ⟨before, e', after, (List.append_inj' hsplit rfl).1, hcpu, hf⟩
  · rintro (⟨before, e', after, rfl, hcpu, hf⟩ | ⟨hcpu, hf⟩)
    · exact ⟨before, e', after ++ [e], by simp, hcpu, hf⟩
    · exact ⟨es, e, [], rfl, hcpu, hf⟩

end

/-! ### The entries for the kernel -/

/-- The call of `gdt_set_entry` for entry 1, 2, 3 or 4. -/
def flatSteps (access : BitVec 8) : List EntryStep := entrySteps 0 0xFFFFF access 0xA

/-- What is left of a store to such an entry whatever other processors store to it. -/
def StoreKept (d : GdtDesc) : EntryStep → Prop
  | .baseLow v => d.baseLow = v
  | .baseMiddle v => d.baseMiddle = v
  | .baseHigh v => d.baseHigh = v
  | .limitLow v => d.limitLow = v
  | .granularity _ => d.granularity = 0x0F ∨ d.granularity = 0xAF
  | .loadGranularity | .orGranularity _ => True
  | .access v => d.access ||| 1 = v ||| 1

/-- The entry after the first `k` steps of a call. -/
def Written (access : BitVec 8) (k : Nat) (d : GdtDesc) : Prop := ∀ st ∈ (flatSteps access).take k, StoreKept d st

/-- Entry 2, accessed, between the two stores to its granularity: its limit counts bytes. -/
def byteData : Descriptor := 0x000F93000000FFFF

/-- A segment register of the kernel. The limit of a data segment has no meaning in 64-bit mode. -/
def KernelSeg (seg : Seg) (r : SegReg) : Prop :=
  if seg = .cs then r = ⟨0x08, kernelCode⟩ else r.selector = 0x10 ∧ (r.cached = kernelData ∨ r.cached = byteData)

section
variable {d : GdtDesc} {access loaded : BitVec 8} {k j : Nat} {st st' : EntryStep}

theorem StoreKept.exec (h : StoreKept d st') (hst' : st' ∈ flatSteps access) (hst : st ∈ flatSteps access)
    (hloaded : ∀ v, st = .orGranularity v → loaded = 0x0F ∨ loaded = 0xAF) : StoreKept (st.exec (d, loaded)).1 st' := by
  have hor : ∀ g : BitVec 8, g = 0x0F ∨ g = 0xAF → g ||| (0xA &&& 0xF) <<< 4 = 0xAF := by decide
  simp only [flatSteps, entrySteps, List.mem_cons, List.not_mem_nil, or_false] at hst hst'
  rcases hst with rfl | rfl | rfl | rfl | rfl | rfl | rfl | rfl
  -- The second store to the granularity depends on what was loaded.
  case inr.inr.inr.inr.inr.inr.inl =>
    rcases hst' with rfl | rfl | rfl | rfl | rfl | rfl | rfl | rfl
    case inr.inr.inr.inr.inl =>
      exact Or.inr (hor loaded (hloaded _ rfl))
    all_goals exact h
  all_goals
    rcases hst' with rfl | rfl | rfl | rfl | rfl | rfl | rfl | rfl
    all_goals first | exact h | rfl | exact Or.inl rfl

theorem storeKept_exec_self (hst : st ∈ flatSteps access) : StoreKept (st.exec (d, loaded)).1 st := by
  simp only [flatSteps, entrySteps, List.mem_cons, List.not_mem_nil, or_false] at hst
  rcases hst with rfl | rfl | rfl | rfl | rfl | rfl | rfl | rfl
  all_goals first | rfl | exact Or.inl rfl | trivial

theorem Written.exec (h : Written access k d) (hst : st ∈ flatSteps access)
    (hloaded : ∀ v, st = .orGranularity v → loaded = 0x0F ∨ loaded = 0xAF) : Written access k (st.exec (d, loaded)).1 :=
  fun st' hst' => (h st' hst').exec (List.mem_of_mem_take hst') hst hloaded

theorem Written.next (h : Written access j d) (hst : (flatSteps access)[j]? = some st)
    (hloaded : ∀ v, st = .orGranularity v → loaded = 0x0F ∨ loaded = 0xAF) : Written access (j + 1) (st.exec (d, loaded)).1 := by
  have hmem : st ∈ flatSteps access := List.mem_of_getElem? hst
  intro st' hst'
  rw [List.take_add_one, hst, List.mem_append] at hst'
  rcases hst' with hst' | hst'
  · exact h.exec hmem hloaded st' hst'
  · obtain rfl : st' = st := by simpa using hst'
    exact storeKept_exec_self hmem

theorem flat_or {v : BitVec 8} (h : (flatSteps access)[j]? = some (.orGranularity v)) : j = 6 := by
  rcases j with _ | _ | _ | _ | _ | _ | _ | _ | j <;> cases h
  rfl

/-- A step of a call: what it adds, what it keeps for other processors, and what it loads. -/
theorem Written.step (h : Written access j d) (hst : (flatSteps access)[j]? = some st)
    (hloaded : j = 6 → loaded = 0x0F ∨ loaded = 0xAF) : Written access (j + 1) (st.exec (d, loaded)).1 ∧
      (∀ k, Written access k d → Written access k (st.exec (d, loaded)).1) ∧
      (j = 5 → (st.exec (d, loaded)).2 = 0x0F ∨ (st.exec (d, loaded)).2 = 0xAF) := by
  have hor : ∀ v, st = .orGranularity v → loaded = 0x0F ∨ loaded = 0xAF := by
    rintro v rfl
    exact hloaded (flat_or hst)
  refine ⟨h.next hst hor, fun k hk => hk.exec (List.mem_of_getElem? hst) hor, ?_⟩
  rintro rfl
  cases hst
  have hfirst : ((flatSteps access).take 5)[4]? = some (.granularity _) := rfl
  exact h _ (List.mem_of_getElem? hfirst)

theorem Written.mono (h : Written access k d) (hj : j ≤ k ∨ 8 ≤ k) : Written access j d := by
  rcases hj with hj | hk
  · exact fun st hst => h st (List.take_subset_take_left _ hj hst)
  · have hall : (flatSteps access).take k = flatSteps access := List.take_of_length_le hk
    rw [Written, hall] at h
    exact fun st hst => h st (List.mem_of_mem_take hst)

theorem Written.accessed (h : Written access k d) : Written access k { d with access := d.access ||| 1 } := by
  intro st hst
  have hkept := h st hst
  cases st with
  | access v =>
    have hone : d.access ||| 1 ||| 1 = d.access ||| 1 := by rw [BitVec.or_assoc, BitVec.or_self]
    exact hone.trans hkept
  | _ => exact hkept

/-- All of the entry but one bit of the access byte and the upper half of the granularity. -/
theorem Written.shape (h : Written access 8 d) : ∃ a g, d = ⟨0xFFFF, 0, 0, a, g, 0⟩ ∧ a ||| 1 = access ||| 1 ∧
    (g = 0x0F ∨ g = 0xAF) := by
  obtain ⟨limitLow, baseLow, baseMiddle, a, g, baseHigh⟩ := d
  have hkept : ∀ st ∈ flatSteps access, StoreKept ⟨limitLow, baseLow, baseMiddle, a, g, baseHigh⟩ st := h
  simp only [flatSteps, entrySteps, List.forall_mem_cons, StoreKept] at hkept
  obtain ⟨h₁, h₂, h₃, h₄, h₅, -, -, h₈, -⟩ := hkept
  refine ⟨a, g, ?_, h₈, h₅⟩
  rw [h₁, h₂, h₃, h₄]
  rfl

theorem accessed_eq {a : BitVec 8} : (a ||| 1 = 0x9A ||| 1 → a = 0x9A ∨ a = 0x9B) ∧
    (a ||| 1 = 0x92 ||| 1 → a = 0x92 ∨ a = 0x93) := by
  revert a
  decide

/-- Entry 1 is a 64-bit code segment exactly behind the second store to its granularity. -/
theorem Written.code (h : Written 0x9A 8 d) : (SegFile.codeAllowed 0 d.bits = true ↔ d.granularity = 0xAF) ∧
    (d.granularity = 0xAF → Descriptor.access d.bits = kernelCode) := by
  obtain ⟨a, g, rfl, ha, hg⟩ := h.shape
  rcases accessed_eq.1 ha with rfl | rfl <;> rcases hg with rfl | rfl <;> decide

theorem Written.data (h : Written 0x92 8 d) : DataAllowed d.bits ∧
    (Descriptor.access d.bits = kernelData ∨ Descriptor.access d.bits = byteData) := by
  obtain ⟨a, g, rfl, ha, hg⟩ := h.shape
  rcases accessed_eq.2 ha with rfl | rfl <;> rcases hg with rfl | rfl <;> exact ⟨⟨by decide, by decide⟩, by decide⟩

end

/-! ### The steps of `gdt_init` -/

/-- The number of steps of `gdt_init` after which a register is loaded. -/
def loadedAfter : Seg → Nat
  | .ds => 50
  | .es => 51
  | .gs => 52
  | .fs => 53
  | .ss => 54
  | .cs => 55

section
variable {gdtAddr tss : Word} {n : Nat} {st : InitStep} {a : GdtAction} {rest : List InitStep}

theorem length_gdtInitSteps (tss gdtAddr : Word) : (gdtInitSteps tss gdtAddr).length = 56 := rfl

theorem getElem?_setEntry_append {num : Fin 7} {b limit : Word} {access granularity : BitVec 8} :
    (setEntry num b limit access granularity ++ rest)[n]? =
      if n < 8 then ((entrySteps b limit access granularity)[n]?).map (.entry num) else rest[n - 8]? := by
  have hlength : (setEntry num b limit access granularity).length = 8 := rfl
  rw [List.getElem?_append, hlength, setEntry, List.getElem?_map]

/-- Where a step of `gdt_init` comes from: the `j`-th step of a call of `gdt_set_entry`, or `gdt.asm`. -/
theorem init_cases (h : (gdtInitSteps tss gdtAddr)[n]? = some st) :
    (∃ j st', n = 8 + j ∧ j < 8 ∧ st = .entry 1 st' ∧ (flatSteps 0x9A)[j]? = some st') ∨
    (∃ j st', n = 16 + j ∧ j < 8 ∧ st = .entry 2 st' ∧ (flatSteps 0x92)[j]? = some st') ∨
    (∃ j st', n = 40 + j ∧ j < 8 ∧ st = .entry 5 st' ∧ (entrySteps tss sizeofTss 0x89 0x0)[j]? = some st') ∨
    (∃ num st', (n < 8 ∨ 24 ≤ n ∧ n < 40) ∧ st = .entry num st' ∧ num ≠ 1 ∧ num ≠ 2 ∧ num ≠ 5) ∨
    ∃ a, 48 ≤ n ∧ st = .load a ∧ (gdtLoads gdtAddr)[n - 48]? = some a := by
  simp only [gdtInitSteps, setEntries, List.append_assoc, getElem?_setEntry_append, Nat.sub_sub] at h
  split at h
  · next hn =>
    obtain ⟨st', -, rfl⟩ := Option.map_eq_some_iff.mp h
    exact Or.inr (Or.inr (Or.inr (Or.inl ⟨0, st', Or.inl hn, rfl, by decide, by decide, by decide⟩)))
  split at h
  · next hge hlt =>
    obtain ⟨st', hst, rfl⟩ := Option.map_eq_some_iff.mp h
    exact Or.inl ⟨n - 8, st', by omega, hlt, rfl, hst⟩
  split at h
  · next hge hlt =>
    obtain ⟨st', hst, rfl⟩ := Option.map_eq_some_iff.mp h
    exact Or.inr (Or.inl ⟨n - 16, st', by omega, hlt, rfl, hst⟩)
  split at h
  · next hge hlt =>
    obtain ⟨st', -, rfl⟩ := Option.map_eq_some_iff.mp h
    exact Or.inr (Or.inr (Or.inr (Or.inl ⟨3, st', Or.inr (by omega), rfl, by decide, by decide, by decide⟩)))
  split at h
  · next hge hlt =>
    obtain ⟨st', -, rfl⟩ := Option.map_eq_some_iff.mp h
    exact Or.inr (Or.inr (Or.inr (Or.inl ⟨4, st', Or.inr (by omega), rfl, by decide, by decide, by decide⟩)))
  split at h
  · next hge hlt =>
    obtain ⟨st', hst, rfl⟩ := Option.map_eq_some_iff.mp h
    exact Or.inr (Or.inr (Or.inl ⟨n - 40, st', by omega, hlt, rfl, hst⟩))
  · rw [List.getElem?_map] at h
    obtain ⟨a, ha, rfl⟩ := Option.map_eq_some_iff.mp h
    exact Or.inr (Or.inr (Or.inr (Or.inr ⟨a, by omega, rfl, ha⟩)))

theorem load_cases (h : (gdtLoads gdtAddr)[n - 48]? = some a) (hn : 48 ≤ n) :
    (n = 48 ∧ a = .lgdt ⟨gdtrLimit, gdtAddr⟩) ∨ (∃ seg, seg ≠ .cs ∧ loadedAfter seg = n + 1 ∧ a = .mov seg 0x10) ∨
    (n = 54 ∧ a = .retfq 0x08) ∨ (n = 55 ∧ a = .ltr) := by
  obtain ⟨m, rfl⟩ : ∃ m, n = 48 + m := ⟨n - 48, by omega⟩
  rw [Nat.add_sub_cancel_left] at h
  rcases m with _ | _ | _ | _ | _ | _ | _ | _ | m
  · cases h
    exact Or.inl ⟨rfl, rfl⟩
  · cases h
    exact Or.inr (Or.inl ⟨.ds, nofun, rfl, rfl⟩)
  · cases h
    exact Or.inr (Or.inl ⟨.es, nofun, rfl, rfl⟩)
  · cases h
    exact Or.inr (Or.inl ⟨.gs, nofun, rfl, rfl⟩)
  · cases h
    exact Or.inr (Or.inl ⟨.fs, nofun, rfl, rfl⟩)
  · cases h
    exact Or.inr (Or.inl ⟨.ss, nofun, rfl, rfl⟩)
  · cases h
    exact Or.inr (Or.inr (Or.inl ⟨rfl, rfl⟩))
  · cases h
    exact Or.inr (Or.inr (Or.inr ⟨rfl, rfl⟩))
  · cases h

end

/-! ### One processor -/

/-- A processor in `gdt_init` and in the interrupts after it. -/
structure CpuOk (gdtAddr : Word) (gdt : Gdt) (c : SegCpu) : Prop where
  code : Written 0x9A (c.done - 8) (gdt 1)
  data : Written 0x92 (c.done - 16) (gdt 2)
  loaded : c.done = 14 ∨ c.done = 22 → c.loaded = 0x0F ∨ c.loaded = 0xAF
  gdtr : 49 ≤ c.done → c.file.gdtr = ⟨gdtrLimit, gdtAddr⟩
  seg : ∀ seg, loadedAfter seg ≤ c.done → KernelSeg seg (c.file.seg seg)
  cpl : c.file.cpl = 0
  frames : ∀ p ∈ c.frames, p = (0x08, 0x10)
  /-- Interrupts are off before. -/
  quiet : c.frames ≠ [] → c.done = 56

/-- Other processors may rely on what stays of the two entries. -/
structure Keeps (gdt gdt' : Gdt) : Prop where
  code : ∀ k, Written 0x9A k (gdt 1) → Written 0x9A k (gdt' 1)
  data : ∀ k, Written 0x92 k (gdt 2) → Written 0x92 k (gdt' 2)

section
variable {gdtAddr tss base : Word} {others : Word → Nat → Descriptor} {sIsr : Nat → Word} {gdt gdt' gdt'' : Gdt}
variable {file file' : SegFile} {selector : BitVec 16} {i : Fin 7} {c c' : SegCpu} {step : SegStep} {r : Option (Gdt × SegFile)}
variable {seg : Seg} {reg : SegReg} {frames : List (BitVec 16 × BitVec 16)}

theorem keeps_of_eq (hone : gdt' 1 = gdt 1) (htwo : gdt' 2 = gdt 2) : Keeps gdt gdt' where
  code k h := by
    rw [hone]
    exact h
  data k h := by
    rw [htwo]
    exact h

theorem Keeps.trans (h : Keeps gdt gdt') (h' : Keeps gdt' gdt'') : Keeps gdt gdt'' :=
  ⟨fun k hk => h'.code k (h.code k hk), fun k hk => h'.data k (h.data k hk)⟩

theorem markAccessed_cases (gdtAddr : Word) (gdt : Gdt) (base : Word) (selector : BitVec 16) (i : Fin 7) :
    markAccessed gdtAddr gdt base selector i = gdt i ∨
      markAccessed gdtAddr gdt base selector i = { gdt i with access := (gdt i).access ||| 1 } := by
  unfold markAccessed
  split
  · next h =>
    by_cases hi : i = ⟨index selector, h.2.1⟩
    · subst hi
      exact Or.inr (Function.update_self _ _ _)
    · exact Or.inl (Function.update_of_ne hi _ _)
  · exact Or.inl rfl

theorem keeps_markAccessed : Keeps gdt (markAccessed gdtAddr gdt base selector) where
  code k h := by
    rcases markAccessed_cases gdtAddr gdt base selector 1 with heq | heq <;> rw [heq]
    · exact h
    · exact h.accessed
  data k h := by
    rcases markAccessed_cases gdtAddr gdt base selector 2 with heq | heq <;> rw [heq]
    · exact h
    · exact h.accessed

theorem granularity_markAccessed : (markAccessed gdtAddr gdt base selector i).granularity = (gdt i).granularity := by
  rcases markAccessed_cases gdtAddr gdt base selector i with heq | heq <;> rw [heq]

theorem kernelSeg_cs : KernelSeg .cs reg ↔ reg = ⟨0x08, kernelCode⟩ := by rw [KernelSeg, if_pos rfl]

theorem kernelSeg_of_ne (hseg : seg ≠ .cs) :
    KernelSeg seg reg ↔ reg.selector = 0x10 ∧ (reg.cached = kernelData ∨ reg.cached = byteData) := by
  rw [KernelSeg, if_neg hseg]

theorem loadCode_written (h : Written 0x9A 8 (gdt 1)) : loadCode gdt file =
    if (gdt 1).granularity = 0xAF then some (file.set .cs ⟨0x08, kernelCode⟩) else none := by
  rw [loadCode]
  by_cases hg : (gdt 1).granularity = 0xAF
  · rw [if_pos (h.code.1.mpr hg), if_pos hg, h.code.2 hg]
  · rw [if_neg (mt h.code.1.mp hg), if_neg hg]

/-- The gates of `idt_init` name the kernel's code segment. -/
theorem gate_selector {vector : BitVec 8} (h : (gateOf (idtInit sIsr) vector).present = true) :
    (gateOf (idtInit sIsr) vector).selector = 0x08 := by
  obtain ⟨hstub, hnone⟩ := idtInit_gates sIsr
  by_cases hv : ∃ stub ∈ isrStubs, BitVec.ofNat 8 stub.1 = vector
  · obtain ⟨stub, hmem, rfl⟩ := hv
    rw [hstub stub hmem]
  · rw [hnone vector fun stub hmem heq => hv ⟨stub, hmem, heq⟩] at h
    cases h

/-! #### What a step does -/

theorem CpuOk.codeWritten (h : CpuOk gdtAddr gdt c) (hdone : 16 ≤ c.done) : Written 0x9A 8 (gdt 1) :=
  h.code.mono (Or.inl (by omega))

theorem CpuOk.dataWritten (h : CpuOk gdtAddr gdt c) (hdone : 24 ≤ c.done) : Written 0x92 8 (gdt 2) :=
  h.data.mono (Or.inl (by omega))

/-- The segments are those of the kernel behind `gdt_init`. -/
theorem CpuOk.kernelSegs (h : CpuOk gdtAddr gdt c) (hdone : 55 ≤ c.done) (seg : Seg) : KernelSeg seg (c.file.seg seg) := by
  refine h.seg seg ?_
  cases seg <;> simp only [loadedAfter] <;> omega

theorem segNext_cases (h : CpuOk gdtAddr gdt c) (hnext : segNext tss gdtAddr others (idtInit sIsr) gdt c step = some (c', r)) :
    (∃ num st, (gdtInitSteps tss gdtAddr)[c.done]? = some (.entry num st) ∧ step = .init (.entry num st) ∧
      c' = { c with loaded := (st.exec (gdt num, c.loaded)).2, done := c.done + 1 } ∧
      r = some (Function.update gdt num (st.exec (gdt num, c.loaded)).1, c.file)) ∨
    (c.done = 48 ∧ step = .init (.load (.lgdt ⟨gdtrLimit, gdtAddr⟩)) ∧ c' = { c with done := c.done + 1 } ∧
      r = some (gdt, { c.file with gdtr := ⟨gdtrLimit, gdtAddr⟩ })) ∨
    (∃ seg, seg ≠ .cs ∧ loadedAfter seg = c.done + 1 ∧ step = .init (.load (.mov seg 0x10)) ∧
      c' = { c with done := c.done + 1 } ∧
      r = some (markAccessed gdtAddr gdt gdtAddr 0x10, c.file.set seg ⟨0x10, Descriptor.access (gdt 2).bits⟩)) ∨
    (c.done = 54 ∧ step = .init (.load (.retfq 0x08)) ∧ c' = { c with done := c.done + 1 } ∧
      r = (loadCode gdt c.file).map fun f => (markAccessed gdtAddr gdt gdtAddr 0x08, f)) ∨
    (c.done = 55 ∧ step = .init (.load .ltr) ∧ c' = { c with done := c.done + 1 } ∧
      r = (ltr gdt).map fun gdt' => (gdt', c.file)) ∨
    (c.done = 56 ∧ ∃ vector, step = .interrupt vector ∧ c' = { c with frames := (0x08, 0x10) :: c.frames } ∧
      r = (loadCode gdt c.file).map fun f => (markAccessed gdtAddr gdt gdtAddr 0x08, f)) ∨
    (c.done = 56 ∧ ∃ frames, step = .iretq ∧ c.frames = (0x08, 0x10) :: frames ∧ c' = { c with frames := frames } ∧
      r = (loadCode gdt c.file).map fun f => (markAccessed gdtAddr (markAccessed gdtAddr gdt gdtAddr 0x08) gdtAddr 0x10,
        f.set .ss ⟨0x10, Descriptor.access (gdt 2).bits⟩)) := by
  cases step with
  | init st =>
    rw [segNext.eq_def] at hnext
    simp only at hnext
    split at hnext
    · next hlook =>
      split at hnext
      · next num st =>
        cases hnext
        exact Or.inl ⟨num, st, hlook, rfl, rfl, rfl⟩
      · next a =>
        cases hnext
        refine Or.inr ?_
        rcases init_cases hlook with ⟨_, _, _, _, hst, -⟩ | ⟨_, _, _, _, hst, -⟩ | ⟨_, _, _, _, hst, -⟩ | ⟨_, _, _, hst, -⟩ |
          ⟨a', hn, hst, ha⟩
        iterate 4 cases hst
        cases hst
        rcases load_cases ha hn with ⟨hdone, rfl⟩ | ⟨seg, hseg, hloaded, rfl⟩ | ⟨hdone, rfl⟩ | ⟨hdone, rfl⟩
        · exact Or.inl ⟨hdone, rfl, rfl, rfl⟩
        · have hrange : 49 ≤ c.done := by
            cases seg <;> simp only [loadedAfter] at hloaded <;> omega
          have hdata := (h.dataWritten (by omega)).data.1
          exact Or.inr (Or.inl ⟨seg, hseg, hloaded, rfl, rfl, gdtAct_mov (h.gdtr hrange) h.cpl hdata hseg⟩)
        · exact Or.inr (Or.inr (Or.inl ⟨hdone, rfl, rfl, gdtAct_retfq (h.gdtr (by omega)) h.cpl⟩))
        · exact Or.inr (Or.inr (Or.inr (Or.inl ⟨hdone, rfl, rfl, rfl⟩)))
    · cases hnext
  | interrupt vector =>
    rw [segNext.eq_def] at hnext
    simp only at hnext
    split at hnext
    · next hready =>
      obtain ⟨hdone, hpresent⟩ := hready
      rw [length_gdtInitSteps] at hdone
      have hgdtr := h.gdtr (by omega)
      have hcs := kernelSeg_cs.mp (h.kernelSegs (by omega) .cs)
      have hss := (kernelSeg_of_ne (by decide)).mp (h.kernelSegs (by omega) .ss)
      cases hnext
      rw [gate_selector hpresent, hgdtr, enterGate_code hgdtr h.cpl, hcs, hss.1]
      exact Or.inr (Or.inr (Or.inr (Or.inr (Or.inr (Or.inl ⟨hdone, vector, rfl, rfl, rfl⟩)))))
    · cases hnext
  | iretq =>
    rw [segNext.eq_def] at hnext
    simp only at hnext
    split at hnext
    · cases hnext
    · next cs ss frames hframes =>
      have hdone := h.quiet (by rw [hframes]; nofun)
      have hgdtr := h.gdtr (by omega)
      have hdata := (h.dataWritten (by omega)).data.1
      cases h.frames (cs, ss) (by rw [hframes]; exact List.mem_cons_self)
      cases hnext
      rw [hgdtr, iret_kernel hgdtr h.cpl hdata, Option.map_map]
      exact Or.inr (Or.inr (Or.inr (Or.inr (Or.inr (Or.inr ⟨hdone, frames, rfl, hframes, rfl, rfl⟩)))))

/-! #### What stays of a processor -/

/-- The steps of other processors do not take the kernel's segments away. -/
theorem CpuOk.other (h : CpuOk gdtAddr gdt c) (hk : Keeps gdt gdt') : CpuOk gdtAddr gdt' c where
  __ := h
  code := hk.code _ h.code
  data := hk.data _ h.data

/-- A step of `gdt_set_entry`. -/
theorem CpuOk.entry {loaded : BitVec 8} (h : CpuOk gdtAddr gdt c) (hlt : c.done < 48)
    (hcode : Written 0x9A (c.done + 1 - 8) (gdt' 1)) (hdata : Written 0x92 (c.done + 1 - 16) (gdt' 2))
    (hloaded : c.done = 13 ∨ c.done = 21 → loaded = 0x0F ∨ loaded = 0xAF) :
    CpuOk gdtAddr gdt' { c with loaded := loaded, done := c.done + 1 } where
  code := hcode
  data := hdata
  loaded hd := hloaded (by simp only at hd; omega)
  gdtr hd := by
    simp only at hd
    omega
  seg seg hd := by
    cases seg <;> simp only [loadedAfter] at hd <;> omega
  cpl := h.cpl
  frames := h.frames
  quiet hf := by
    have hq := h.quiet hf
    omega

/-- A step of `gdt.asm`. -/
theorem CpuOk.load (h : CpuOk gdtAddr gdt c) (hk : Keeps gdt gdt') (hge : 48 ≤ c.done) (hlt : c.done < 56)
    (hgdtr : file'.gdtr = ⟨gdtrLimit, gdtAddr⟩) (hcpl : file'.cpl = 0)
    (hseg : ∀ seg, loadedAfter seg ≤ c.done + 1 → KernelSeg seg (file'.seg seg)) :
    CpuOk gdtAddr gdt' { c with done := c.done + 1, file := file' } where
  code := hk.code _ (h.code.mono (Or.inr (by omega)))
  data := hk.data _ (h.data.mono (Or.inr (by omega)))
  loaded hd := by
    simp only at hd
    omega
  gdtr _ := hgdtr
  seg := hseg
  cpl := hcpl
  frames := h.frames
  quiet hf := by
    have hq := h.quiet hf
    omega

/-- An interrupt or the return from one. -/
theorem CpuOk.interrupted (h : CpuOk gdtAddr gdt c) (hk : Keeps gdt gdt') (hdone : c.done = 56)
    (hgdtr : file'.gdtr = ⟨gdtrLimit, gdtAddr⟩) (hcpl : file'.cpl = 0) (hseg : ∀ seg, KernelSeg seg (file'.seg seg))
    (hframes : ∀ p ∈ frames, p = (0x08, 0x10)) : CpuOk gdtAddr gdt' { c with frames := frames, file := file' } where
  code := hk.code _ h.code
  data := hk.data _ h.data
  loaded hd := by
    simp only at hd
    omega
  gdtr _ := hgdtr
  seg seg _ := hseg seg
  cpl := hcpl
  frames := hframes
  quiet _ := hdone

theorem kernelSeg_set {seg' : Seg} (hset : KernelSeg seg reg) (hother : seg' ≠ seg → KernelSeg seg' (file.seg seg')) :
    KernelSeg seg' ((file.set seg reg).seg seg') := by
  by_cases hs : seg' = seg
  · subst hs
    rw [SegFile.seg_set]
    exact hset
  · rw [SegFile.seg_set_of_ne hs]
    exact hother hs

theorem cpl_set_of_ne (hseg : seg ≠ .cs) (hcpl : file.cpl = 0) : (file.set seg reg).cpl = 0 := by
  rw [← hcpl, SegFile.cpl, SegFile.cpl, SegFile.seg_set_of_ne hseg.symm]

theorem CpuOk.next (h : CpuOk gdtAddr gdt c)
    (hnext : segNext tss gdtAddr others (idtInit sIsr) gdt c step = some (c', some (gdt', file'))) :
    Keeps gdt gdt' ∧ CpuOk gdtAddr gdt' { c' with file := file' } := by
  have hsegs : 55 ≤ c.done → ∀ {seg' : Seg}, KernelSeg seg' (c.file.seg seg') := fun hd => h.kernelSegs hd _
  rcases segNext_cases h hnext with ⟨num, st, hlook, rfl, rfl, hr⟩ | ⟨hdone, rfl, rfl, hr⟩ | ⟨seg, hseg, hafter, rfl, rfl, hr⟩ |
    ⟨hdone, rfl, rfl, hr⟩ | ⟨hdone, rfl, rfl, hr⟩ | ⟨hdone, vector, rfl, rfl, hr⟩ | ⟨hdone, frames, rfl, hframes, rfl, hr⟩
  · cases hr
    rcases init_cases hlook with ⟨j, st', hn, hj, hst, hlook⟩ | ⟨j, st', hn, hj, hst, hlook⟩ | ⟨j, st', hn, hj, hst, hlook⟩ |
      ⟨num', st', hn, hst, hone, htwo, -⟩ | ⟨_, _, hst, -⟩
    · cases hst
      have hcode : Written 0x9A j (gdt 1) := h.code.mono (Or.inl (by omega))
      obtain ⟨hwritten, hkeep, hload⟩ := hcode.step hlook fun hsix => h.loaded (Or.inl (by omega))
      refine ⟨⟨fun k hk => ?_, fun k hk => ?_⟩, h.entry (by omega) ?_ ?_ fun hd => hload (by omega)⟩
      · rw [Function.update_self]
        exact hkeep k hk
      · rw [Function.update_of_ne (by decide)]
        exact hk
      · rw [Function.update_self]
        exact hwritten.mono (Or.inl (by omega))
      · rw [Function.update_of_ne (by decide)]
        exact h.data.mono (Or.inl (by omega))
    · cases hst
      have hdata : Written 0x92 j (gdt 2) := h.data.mono (Or.inl (by omega))
      obtain ⟨hwritten, hkeep, hload⟩ := hdata.step hlook fun hsix => h.loaded (Or.inr (by omega))
      refine ⟨⟨fun k hk => ?_, fun k hk => ?_⟩, h.entry (by omega) ?_ ?_ fun hd => hload (by omega)⟩
      · rw [Function.update_of_ne (by decide)]
        exact hk
      · rw [Function.update_self]
        exact hkeep k hk
      · rw [Function.update_of_ne (by decide)]
        exact h.code.mono (Or.inr (by omega))
      · rw [Function.update_self]
        exact hwritten.mono (Or.inl (by omega))
    · cases hst
      have hk : Keeps gdt (Function.update gdt 5 (st.exec (gdt 5, c.loaded)).1) :=
        keeps_of_eq (Function.update_of_ne (by decide) _ _) (Function.update_of_ne (by decide) _ _)
      exact ⟨hk, h.entry (by omega) (hk.code _ (h.code.mono (Or.inr (by omega)))) (hk.data _ (h.data.mono (Or.inr (by omega))))
        (by omega)⟩
    · cases hst
      have hk : Keeps gdt (Function.update gdt num (st.exec (gdt num, c.loaded)).1) :=
        keeps_of_eq (Function.update_of_ne hone.symm _ _) (Function.update_of_ne htwo.symm _ _)
      exact ⟨hk, h.entry (by omega) (hk.code _ (h.code.mono (by omega))) (hk.data _ (h.data.mono (by omega))) (by omega)⟩
    · cases hst
  · cases hr
    refine ⟨keeps_of_eq rfl rfl, h.load (keeps_of_eq rfl rfl) (by omega) (by omega) rfl ?_ fun seg hd => ?_⟩
    · have hcpl := h.cpl
      rw [SegFile.cpl] at hcpl ⊢
      exact hcpl
    · cases seg <;> simp only [loadedAfter] at hd <;> omega
  · cases hr
    have hrange : 49 ≤ c.done ∧ c.done < 54 := by
      cases seg <;> simp only [loadedAfter] at hafter <;> first | omega | exact absurd rfl hseg
    have hgdtr := h.gdtr hrange.1
    refine ⟨keeps_markAccessed, h.load keeps_markAccessed (by omega) (by omega) hgdtr (cpl_set_of_ne hseg h.cpl) fun seg' hd => ?_⟩
    refine kernelSeg_set ((kernelSeg_of_ne hseg).mpr ⟨rfl, (h.dataWritten (by omega)).data.2⟩) fun hs => h.seg seg' ?_
    have hne : loadedAfter seg' ≠ loadedAfter seg := by
      revert hs
      cases seg <;> cases seg' <;> decide
    omega
  · obtain ⟨f, hf, hr⟩ := Option.map_eq_some_iff.mp hr.symm
    cases hr
    rw [loadCode_written (h.codeWritten (by omega))] at hf
    split at hf
    · cases hf
      refine ⟨keeps_markAccessed, h.load keeps_markAccessed (by omega) (by omega) (h.gdtr (by omega)) cpl_set_cs fun seg' hd => ?_⟩
      refine kernelSeg_set (kernelSeg_cs.mpr rfl) fun hs => h.seg seg' ?_
      cases seg' with
      | cs => exact absurd rfl hs
      | _ => simp only [loadedAfter]; omega
    · cases hf
  · obtain ⟨g, hltr, hr⟩ := Option.map_eq_some_iff.mp hr.symm
    cases hr
    have hk : Keeps gdt gdt' := by
      rw [ltr_eq hltr]
      exact keeps_of_eq (Function.update_of_ne (by decide) _ _) (Function.update_of_ne (by decide) _ _)
    exact ⟨hk, h.load hk (by omega) (by omega) (h.gdtr (by omega)) h.cpl fun seg' _ => hsegs (by omega)⟩
  · obtain ⟨f, hf, hr⟩ := Option.map_eq_some_iff.mp hr.symm
    cases hr
    rw [loadCode_written (h.codeWritten (by omega))] at hf
    split at hf
    · cases hf
      refine ⟨keeps_markAccessed, h.interrupted keeps_markAccessed hdone (h.gdtr (by omega)) cpl_set_cs (fun seg' => ?_)
        (List.forall_mem_cons.mpr ⟨rfl, h.frames⟩)⟩
      exact kernelSeg_set (kernelSeg_cs.mpr rfl) fun _ => hsegs (by omega)
    · cases hf
  · obtain ⟨f, hf, hr⟩ := Option.map_eq_some_iff.mp hr.symm
    cases hr
    rw [loadCode_written (h.codeWritten (by omega))] at hf
    split at hf
    · cases hf
      have hk : Keeps gdt (markAccessed gdtAddr (markAccessed gdtAddr gdt gdtAddr 0x08) gdtAddr 0x10) :=
        keeps_markAccessed.trans keeps_markAccessed
      have hss : KernelSeg .ss ⟨0x10, Descriptor.access (gdt 2).bits⟩ :=
        (kernelSeg_of_ne (by decide)).mpr ⟨rfl, (h.dataWritten (by omega)).data.2⟩
      refine ⟨hk, h.interrupted hk hdone (h.gdtr (by omega)) (cpl_set_of_ne (by decide) cpl_set_cs) (fun seg' => ?_)
        fun p hp => h.frames p (by rw [hframes]; exact List.mem_cons_of_mem _ hp)⟩
      exact kernelSeg_set hss fun _ => kernelSeg_set (kernelSeg_cs.mpr rfl) fun _ => hsegs (by omega)
    · cases hf

/-! #### The two windows -/

/-- The granularity of entry 1 after its second store, or between the two. -/
def codeGranularity (whole : Bool) : BitVec 8 := if whole then 0xAF else 0x0F

theorem next_granularity {whole : Bool} (h : CpuOk gdtAddr gdt c)
    (hnext : segNext tss gdtAddr others (idtInit sIsr) gdt c step = some (c', some (gdt', file')))
    (hwhole : c.done = 12 ∨ (gdt 1).granularity = codeGranularity whole) :
    (gdt' 1).granularity = codeGranularity (wholeAfter whole step) := by
  rcases segNext_cases h hnext with ⟨num, st, hlook, rfl, rfl, hr⟩ | ⟨hdone, rfl, rfl, hr⟩ | ⟨seg, hseg, hafter, rfl, rfl, hr⟩ |
    ⟨hdone, rfl, rfl, hr⟩ | ⟨hdone, rfl, rfl, hr⟩ | ⟨hdone, vector, rfl, rfl, hr⟩ | ⟨hdone, frames, rfl, hframes, rfl, hr⟩
  · cases hr
    have hor : ∀ g : BitVec 8, g = 0x0F ∨ g = 0xAF → g ||| (0xA &&& 0xF) <<< 4 = 0xAF := by decide
    have hother : num ≠ 1 → c.done ≠ 12 →
        (Function.update gdt num (st.exec (gdt num, c.loaded)).1 1).granularity =
          codeGranularity (wholeAfter whole (.init (.entry num st))) := fun hne hdone => by
      have hsame : wholeAfter whole (.init (.entry num st)) = whole := by
        cases st <;> simp only [wholeAfter, if_neg hne]
      rw [Function.update_of_ne hne.symm, hsame]
      exact hwhole.resolve_left hdone
    rcases init_cases hlook with ⟨j, st', hn, hj, hst, hlook⟩ | ⟨j, st', hn, hj, hst, hlook⟩ | ⟨j, st', hn, hj, hst, hlook⟩ |
      ⟨num', st', hn, hst, hone, -, -⟩ | ⟨_, _, hst, -⟩
    · cases hst
      rw [Function.update_self]
      rcases j with _ | _ | _ | _ | _ | _ | _ | _ | j <;> cases hlook
      iterate 4 exact hwhole.resolve_left (by omega)
      · rfl
      · exact hwhole.resolve_left (by omega)
      · exact hor _ (h.loaded (Or.inl hn))
      · exact hwhole.resolve_left (by omega)
    · cases hst
      exact hother (by decide) (by omega)
    · cases hst
      exact hother (by decide) (by omega)
    · cases hst
      exact hother hone (by omega)
    · cases hst
  · cases hr
    exact hwhole.resolve_left (by omega)
  · cases hr
    have hne : c.done ≠ 12 := by
      cases seg <;> simp only [loadedAfter] at hafter <;> omega
    exact granularity_markAccessed.trans (hwhole.resolve_left hne)
  · obtain ⟨f, -, hr⟩ := Option.map_eq_some_iff.mp hr.symm
    cases hr
    exact granularity_markAccessed.trans (hwhole.resolve_left (by omega))
  · obtain ⟨g, hltr, hr⟩ := Option.map_eq_some_iff.mp hr.symm
    cases hr
    rw [ltr_eq hltr, Function.update_of_ne (by decide)]
    exact hwhole.resolve_left (by omega)
  · obtain ⟨f, -, hr⟩ := Option.map_eq_some_iff.mp hr.symm
    cases hr
    exact granularity_markAccessed.trans (hwhole.resolve_left (by omega))
  · obtain ⟨f, -, hr⟩ := Option.map_eq_some_iff.mp hr.symm
    cases hr
    exact granularity_markAccessed.trans (granularity_markAccessed.trans (hwhole.resolve_left (by omega)))

theorem next_available {fresh : Bool} (h : CpuOk gdtAddr gdt c)
    (hnext : segNext tss gdtAddr others (idtInit sIsr) gdt c step = some (c', some (gdt', file')))
    (hfresh : c.done = 47 ∨ (gdt 5).availableTss = fresh) : (gdt' 5).availableTss = freshAfter fresh step := by
  have hmark : ∀ {g : Gdt} {sel : BitVec 16}, index sel ≠ 5 → markAccessed gdtAddr g gdtAddr sel 5 = g 5 := fun hne =>
    markAccessed_of_ne hne.symm
  rcases segNext_cases h hnext with ⟨num, st, hlook, rfl, rfl, hr⟩ | ⟨hdone, rfl, rfl, hr⟩ | ⟨seg, hseg, hafter, rfl, rfl, hr⟩ |
    ⟨hdone, rfl, rfl, hr⟩ | ⟨hdone, rfl, rfl, hr⟩ | ⟨hdone, vector, rfl, rfl, hr⟩ | ⟨hdone, frames, rfl, hframes, rfl, hr⟩
  · cases hr
    have hother : num ≠ 5 → c.done ≠ 47 → (Function.update gdt num (st.exec (gdt num, c.loaded)).1 5).availableTss =
        freshAfter fresh (.init (.entry num st)) := fun hne hdone => by
      have hsame : freshAfter fresh (.init (.entry num st)) = fresh := by
        cases st <;> simp only [freshAfter, if_neg hne]
      rw [Function.update_of_ne hne.symm, hsame]
      exact hfresh.resolve_left hdone
    rcases init_cases hlook with ⟨j, st', hn, hj, hst, hlook⟩ | ⟨j, st', hn, hj, hst, hlook⟩ | ⟨j, st', hn, hj, hst, hlook⟩ |
      ⟨num', st', hn, hst, -, -, hfive⟩ | ⟨_, _, hst, -⟩
    · cases hst
      exact hother (by decide) (by omega)
    · cases hst
      exact hother (by decide) (by omega)
    · cases hst
      rw [Function.update_self]
      rcases j with _ | _ | _ | _ | _ | _ | _ | _ | j <;> cases hlook
      iterate 7 exact hfresh.resolve_left (by omega)
      · have havail : (0x89 : BitVec 8) &&& 0x9F = 0x89 := by decide
        exact decide_eq_true havail
    · cases hst
      exact hother hfive (by omega)
    · cases hst
  · cases hr
    exact hfresh.resolve_left (by omega)
  · cases hr
    have hne : c.done ≠ 47 := by
      cases seg <;> simp only [loadedAfter] at hafter <;> omega
    rw [hmark (by decide)]
    exact hfresh.resolve_left hne
  · obtain ⟨f, -, hr⟩ := Option.map_eq_some_iff.mp hr.symm
    cases hr
    rw [hmark (by decide)]
    exact hfresh.resolve_left (by omega)
  · obtain ⟨g, hltr, hr⟩ := Option.map_eq_some_iff.mp hr.symm
    cases hr
    exact (ltr_eq_some hltr).2
  · obtain ⟨f, -, hr⟩ := Option.map_eq_some_iff.mp hr.symm
    cases hr
    rw [hmark (by decide)]
    exact hfresh.resolve_left (by omega)
  · obtain ⟨f, -, hr⟩ := Option.map_eq_some_iff.mp hr.symm
    cases hr
    rw [hmark (by decide), hmark (by decide)]
    exact hfresh.resolve_left (by omega)

variable {Cpu : Type} {es : List (SegEvent Cpu)}

theorem loadCode_eq_none (h : Written 0x9A 8 (gdt 1)) (hwhole : (gdt 1).granularity = codeGranularity (codeWhole es)) :
    loadCode gdt file = none ↔ codeWhole es = false := by
  rw [loadCode_written h, hwhole]
  cases codeWhole es with
  | false => exact iff_of_true (if_neg (by decide)) rfl
  | true => exact iff_of_false (by rw [if_pos (by decide)]; nofun) nofun

theorem ltr_eq_none_iff : ltr gdt = none ↔ (gdt 5).availableTss = false := by
  rw [ltr]
  cases (gdt 5).availableTss <;> simp

/-- The steps that fault. -/
theorem next_eq_none (es : List (SegEvent Cpu)) (h : CpuOk gdtAddr gdt c) (hnext : segNext tss gdtAddr others (idtInit sIsr) gdt c step = some (c', r))
    (hwhole : 13 ≤ c.done → (gdt 1).granularity = codeGranularity (codeWhole es))
    (hfresh : 48 ≤ c.done → (gdt 5).availableTss = tssFresh es) :
    (r = none ↔ Faults es step) ∧ (r = none → 54 ≤ c.done) := by
  have hcode : ∀ {F : SegFile → Gdt × SegFile}, 54 ≤ c.done →
      ((loadCode gdt c.file).map F = none ↔ codeWhole es = false) := fun hd => by
    rw [Option.map_eq_none_iff]
    exact loadCode_eq_none (h.codeWritten (by omega)) (hwhole (by omega))
  rcases segNext_cases h hnext with ⟨num, st, -, rfl, -, rfl⟩ | ⟨-, rfl, -, rfl⟩ | ⟨seg, -, -, rfl, -, rfl⟩ |
    ⟨hdone, rfl, -, rfl⟩ | ⟨hdone, rfl, -, rfl⟩ | ⟨hdone, vector, rfl, -, rfl⟩ | ⟨hdone, frames, rfl, -, -, rfl⟩
  · exact ⟨iff_of_false nofun id, nofun⟩
  · exact ⟨iff_of_false nofun id, nofun⟩
  · exact ⟨iff_of_false nofun id, nofun⟩
  · exact ⟨hcode (by omega), fun _ => by omega⟩
  · refine ⟨?_, fun _ => by omega⟩
    rw [Option.map_eq_none_iff, ltr_eq_none_iff, hfresh (by omega)]
    rfl
  · exact ⟨hcode (by omega), fun _ => by omega⟩
  · exact ⟨hcode (by omega), fun _ => by omega⟩

/-- The windows only change with steps that do not fault. -/
theorem after_of_faults {step : SegStep} (h : Faults es step) (whole fresh : Bool) :
    wholeAfter whole step = whole ∧ (fresh = tssFresh es → freshAfter fresh step = fresh) := by
  cases step with
  | init st =>
    cases st with
    | entry num st => cases h
    | load a =>
      cases a with
      | ltr => exact ⟨rfl, fun hf => (hf.trans h).symm ▸ rfl⟩
      | retfq selector => exact ⟨rfl, fun _ => rfl⟩
      | lgdt gdtr => cases h
      | mov seg selector => cases h
  | interrupt vector => exact ⟨rfl, fun _ => rfl⟩
  | iretq => exact ⟨rfl, fun _ => rfl⟩

end

/-! ### All processors -/

section
variable {Cpu : Type} [DecidableEq Cpu] {s s' t : SegState Cpu} {es : List (SegEvent Cpu)} {e : SegEvent Cpu} {cpu other : Cpu}
variable {gdtAddr tss : Word} {others : Word → Nat → Descriptor} {sIsr : Nat → Word} {c : SegCpu} {gdt' : Gdt} {file' : SegFile}
variable {r : Option (Gdt × SegFile)}

theorem put_some_self : (s.put cpu c (some (gdt', file'))).cpu cpu = { c with file := file' } := Function.update_self _ _ _

theorem put_none_self : (s.put cpu c none).cpu cpu = { s.cpu cpu with faulted := true } := Function.update_self _ _ _

theorem put_of_ne (h : other ≠ cpu) : (s.put cpu c r).cpu other = s.cpu other := by
  cases r <;> exact Function.update_of_ne h _ _

/-- The state after the events. -/
structure SegInv (gdtAddr : Word) (es : List (SegEvent Cpu)) (s : SegState Cpu) : Prop where
  cpu : ∀ cpu, CpuOk gdtAddr s.gdt (s.cpu cpu)
  whole : ∀ cpu, 13 ≤ (s.cpu cpu).done → (s.gdt 1).granularity = codeGranularity (codeWhole es)
  fresh : ∀ cpu, 48 ≤ (s.cpu cpu).done → (s.gdt 5).availableTss = tssFresh es
  faulted : ∀ cpu, (s.cpu cpu).faulted = true ↔ Faulted cpu es

/-- What the step changes of the processor besides its segment registers. -/
theorem segNext_cpu {gdt : Gdt} {c c' : SegCpu} {step : SegStep}
    (hnext : segNext tss gdtAddr others (idtInit sIsr) gdt c step = some (c', r)) : c'.faulted = c.faulted ∧
      ((∃ st, step = .init st ∧ (gdtInitSteps tss gdtAddr)[c.done]? = some st ∧ c'.done = c.done + 1 ∧ c'.frames = c.frames) ∨
        (∀ st, step ≠ .init st) ∧ c'.done = c.done) := by
  cases step with
  | init st =>
    rw [segNext.eq_def] at hnext
    simp only at hnext
    split at hnext
    · next hlook =>
      split at hnext <;> cases hnext <;> exact ⟨rfl, Or.inl ⟨_, rfl, hlook, rfl, rfl⟩⟩
    · cases hnext
  | interrupt vector =>
    rw [segNext.eq_def] at hnext
    simp only at hnext
    split at hnext
    · cases hnext
      exact ⟨rfl, Or.inr ⟨nofun, rfl⟩⟩
    · cases hnext
  | iretq =>
    rw [segNext.eq_def] at hnext
    simp only at hnext
    split at hnext
    · cases hnext
    · cases hnext
      exact ⟨rfl, Or.inr ⟨nofun, rfl⟩⟩

theorem SegInv.step (h : SegInv gdtAddr es s) (hstep : segStep tss gdtAddr others (idtInit sIsr) s e = some s') :
    SegInv gdtAddr (es ++ [e]) s' := by
  unfold segStep at hstep
  split at hstep
  · cases hstep
  next hno =>
  obtain ⟨⟨c', r⟩, hnext, rfl⟩ := Option.map_eq_some_iff.mp hstep
  have hc := h.cpu e.cpu
  obtain ⟨hfault, hlate⟩ := next_eq_none es hc hnext (h.whole e.cpu) (h.fresh e.cpu)
  obtain ⟨hsame, hdone⟩ := segNext_cpu hnext
  have hle : c'.done ≤ (s.cpu e.cpu).done + 1 := by
    rcases hdone with ⟨_, _, _, hd, _⟩ | ⟨_, hd⟩ <;> omega
  cases r with
  | none =>
    have hf : Faults es e.step := hfault.mp rfl
    have hge := hlate rfl
    obtain ⟨hwhole, hfresh⟩ := after_of_faults hf (codeWhole es) (tssFresh es)
    refine ⟨fun cpu => ?_, fun cpu _ => ?_, fun cpu _ => ?_, fun cpu => ?_⟩
    · by_cases hcpu : cpu = e.cpu
      · subst hcpu
        rw [put_none_self]
        exact { hc with }
      · rw [put_of_ne hcpu]
        exact h.cpu cpu
    · rw [codeWhole_concat, hwhole]
      exact h.whole e.cpu (by omega)
    · rw [tssFresh_concat, hfresh rfl]
      exact h.fresh e.cpu (by omega)
    · rw [faulted_concat]
      by_cases hcpu : cpu = e.cpu
      · subst hcpu
        rw [put_none_self]
        exact iff_of_true rfl (Or.inr ⟨rfl, hf⟩)
      · rw [put_of_ne hcpu, h.faulted]
        exact ⟨Or.inl, fun hor => hor.resolve_right fun hlast => hcpu hlast.1.symm⟩
  | some x =>
    obtain ⟨gdt', file'⟩ := x
    have hnf : ¬Faults es e.step := mt hfault.mpr nofun
    obtain ⟨hk, hok⟩ := hc.next hnext
    refine ⟨fun cpu => ?_, fun cpu hd => ?_, fun cpu hd => ?_, fun cpu => ?_⟩
    · by_cases hcpu : cpu = e.cpu
      · subst hcpu
        rw [put_some_self]
        exact hok
      · rw [put_of_ne hcpu]
        exact (h.cpu cpu).other hk
    · rw [codeWhole_concat]
      refine next_granularity hc hnext ?_
      by_cases hcpu : cpu = e.cpu
      · subst hcpu
        rw [put_some_self] at hd
        by_cases h12 : (s.cpu e.cpu).done = 12
        · exact Or.inl h12
        · exact Or.inr (h.whole e.cpu (by simp only at hd; omega))
      · rw [put_of_ne hcpu] at hd
        exact Or.inr (h.whole cpu hd)
    · rw [tssFresh_concat]
      refine next_available hc hnext ?_
      by_cases hcpu : cpu = e.cpu
      · subst hcpu
        rw [put_some_self] at hd
        by_cases h47 : (s.cpu e.cpu).done = 47
        · exact Or.inl h47
        · exact Or.inr (h.fresh e.cpu (by simp only at hd; omega))
      · rw [put_of_ne hcpu] at hd
        exact Or.inr (h.fresh cpu hd)
    · rw [faulted_concat]
      by_cases hcpu : cpu = e.cpu
      · subst hcpu
        rw [put_some_self, hsame, h.faulted]
        exact ⟨Or.inl, fun hor => hor.resolve_right fun hlast => hnf hlast.2⟩
      · rw [put_of_ne hcpu, h.faulted]
        exact ⟨Or.inl, fun hor => hor.resolve_right fun hlast => hcpu hlast.1.symm⟩

/-- The processors at the call of `gdt_init`. -/
def AtGdtInit (c : SegCpu) : Prop := c.done = 0 ∧ c.frames = [] ∧ c.faulted = false ∧ c.file.cpl = 0

theorem run_segInv (hstart : ∀ cpu, AtGdtInit (s.cpu cpu)) (h : run (segStep tss gdtAddr others (idtInit sIsr)) s es = some t) :
    SegInv gdtAddr es t := by
  induction es using List.reverseRecOn generalizing t with
  | nil =>
    cases h
    refine ⟨fun cpu => ?_, fun cpu hd => ?_, fun cpu hd => ?_, fun cpu => ?_⟩
    · obtain ⟨hdone, hframes, -, hcpl⟩ := hstart cpu
      have hnone : ∀ {access : BitVec 8} {d : GdtDesc} {k : Nat}, Written access ((s.cpu cpu).done - k) d := fun {_ _ k} => by
        rw [hdone, Nat.zero_sub]
        exact nofun
      refine ⟨hnone, hnone, fun hd => by omega, fun hd => by omega, fun seg hd => ?_, hcpl, ?_, fun hf => absurd hframes hf⟩
      · cases seg <;> simp only [loadedAfter] at hd <;> omega
      · rw [hframes]
        exact nofun
    · have hdone := (hstart cpu).1
      omega
    · have hdone := (hstart cpu).1
      omega
    · rw [(hstart cpu).2.2.1]
      exact iff_of_false nofun fun ⟨_, _, _, heq, _⟩ => by simp at heq
  | append_singleton es e ih =>
    obtain ⟨u, hu, he⟩ := run_append_eq_some.mp h
    obtain ⟨v, he, hv⟩ := run_cons_eq_some.mp he
    cases hv
    exact (ih hu).step he

/-- What a processor has of its segments. -/
structure SegmentsOk (gdtAddr : Word) (c : SegCpu) : Prop where
  /-- Behind `s_setgdt`. -/
  loaded : 55 ≤ c.done → c.file.gdtr = ⟨gdtrLimit, gdtAddr⟩ ∧ ∀ seg, KernelSeg seg (c.file.seg seg)
  interrupted : ∀ p ∈ c.frames, p = (0x08, 0x10)

/-- However the stores and loads of the processors interleave, a processor faults exactly when it executes `ltr` and the access
    byte of the TSS descriptor has not been stored since the last one, or when it loads `cs` and the last store to the
    granularity of entry 1 is the first of the two. Behind `s_setgdt` each runs on the kernel's segments, in all interrupts
    too. -/
theorem segments_run (tss : Word) (others : Word → Nat → Descriptor) (sIsr : Nat → Word) (hstart : ∀ cpu, AtGdtInit (s.cpu cpu))
    (h : run (segStep tss gdtAddr others (idtInit sIsr)) s es = some t) (cpu : Cpu) :
    ((t.cpu cpu).faulted = true ↔ Faulted cpu es) ∧ SegmentsOk gdtAddr (t.cpu cpu) := by
  have hinv := run_segInv hstart h
  exact ⟨hinv.faulted cpu, fun hd => ⟨(hinv.cpu cpu).gdtr (by omega), (hinv.cpu cpu).kernelSegs hd⟩, (hinv.cpu cpu).frames⟩

end

/-- The processors at the call of `gdt_init`, with Limine's segments. -/
def limineSegments : SegState Nat where
  gdt := gdtStart
  cpu := fun _ => ⟨⟨⟨0x37, 0xffff800000001000⟩, fun _ => ⟨0x28, 0⟩⟩, 0, 0, [], false⟩

/-- The steps of `gdt_init` on a processor, with the TSS at 0xffffffff80020000. -/
def initEvents (cpu : Nat) : List (SegEvent Nat) :=
  (gdtInitSteps 0xffffffff80020000 0xffffffff80010000).map fun st => ⟨cpu, .init st⟩

/-- Processor 1 is in an interrupt when processor 2 writes the descriptors up to both stores to the granularity of entry 1, and
    processor 3 up to the first of them. -/
def segEvents : List (SegEvent Nat) :=
  initEvents 1 ++ [⟨1, .interrupt 33⟩] ++ (initEvents 2).take 15 ++ [⟨1, .interrupt 172⟩, ⟨1, .iretq⟩] ++
    (initEvents 2).drop 15 ++ (initEvents 3).take 13 ++ [⟨1, .iretq⟩]

theorem segments_run_sample : ∃ t, run (segStep 0xffffffff80020000 0xffffffff80010000 (fun _ _ => 0)
    (idtInit fun i => BitVec.ofNat 64 (0xffffffff80001000 + i))) limineSegments segEvents = some t ∧
    (t.cpu 2).done = 56 ∧ ¬Faulted 2 segEvents ∧ SegmentsOk 0xffffffff80010000 (t.cpu 2) ∧
    Faulted 1 segEvents ∧ (t.cpu 1).frames = [(0x08, 0x10)] := by
  have hrun : (run (segStep 0xffffffff80020000 0xffffffff80010000 (fun _ _ => 0)
      (idtInit fun i => BitVec.ofNat 64 (0xffffffff80001000 + i))) limineSegments segEvents).map
        (fun t => ((t.cpu 1).faulted, (t.cpu 2).faulted, (t.cpu 1).frames, (t.cpu 2).done)) =
          some (true, false, [(0x08, 0x10)], 56) := by
    decide +kernel
  obtain ⟨t, ht, hend⟩ := Option.map_eq_some_iff.mp hrun
  simp only [Prod.mk.injEq] at hend
  obtain ⟨hone, htwo, hframes, hdone⟩ := hend
  have hcpl : (limineSegments.cpu 1).file.cpl = 0 := by decide
  have hstart : ∀ cpu, AtGdtInit (limineSegments.cpu cpu) := fun _ => ⟨rfl, rfl, rfl, hcpl⟩
  obtain ⟨hfault, hok⟩ := segments_run _ _ _ hstart ht 2
  refine ⟨t, ht, hdone, fun hf => ?_, hok, (segments_run _ _ _ hstart ht 1).1.mp hone, hframes⟩
  rw [hfault.mpr hf] at htwo
  cases htwo

end Neobird64
