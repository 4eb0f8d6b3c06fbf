import Neobird64.Lib.Memory
import Mathlib.Logic.Function.Basic

/-! The part of the x86-64 that interrupt stubs use: the stack, the delivery of an interrupt and `iretq`. A
    list of words is on the stack when the words are in memory from `rsp` on, and each instruction has one
    rule that says what it does to such a list. -/

namespace X86

/-- The general registers besides `rsp`. -/
inductive Reg
  | rax | rbx | rcx | rdx | rbp | rsi | rdi | r8 | r9 | r10 | r11 | r12 | r13 | r14 | r15
deriving DecidableEq, Repr

structure Machine where
  regs : Reg → BitVec 64
  rsp : BitVec 64
  rip : BitVec 64
  cs : BitVec 16
  ss : BitVec 16
  rflags : BitVec 64
  mem : Memory

inductive Instr
  | pushImm (v : BitVec 64)
  | push (r : Reg)
  | pop (r : Reg)
  /-- `mov r, rsp`. -/
  | movRsp (r : Reg)
  | addRsp (n : Nat)
  | call
  | iretq
deriving DecidableEq, Repr

/-- The function that `call` calls: the return address that is pushed, and what the function does from its
    entry up to and with its `ret`. -/
structure Callee where
  ret : BitVec 64
  body : Machine → Machine

namespace Machine

/-- The address of word `i` from the top of the stack. -/
def slot (m : Machine) (i : Nat) : Nat := (m.rsp + BitVec.ofNat 64 (8 * i)).toNat

/-- Word `i` from the top of the stack. -/
def top (m : Machine) (i : Nat) : BitVec 64 := m.mem.read64 (m.slot i)

def push (m : Machine) (v : BitVec 64) : Machine :=
  { m with rsp := m.rsp - 8, mem := m.mem.write64 (m.rsp - 8).toNat v }

end Machine

/-- The code that is given does not jump, so `rip` is left out until `iretq` sets it. -/
def exec (f : Callee) (m : Machine) : Instr → Machine
  | .pushImm v => m.push v
  | .push r => m.push (m.regs r)
  | .pop r => { m with regs := Function.update m.regs r (m.top 0), rsp := m.rsp + 8 }
  | .movRsp r => { m with regs := Function.update m.regs r m.rsp }
  | .addRsp n => { m with rsp := m.rsp + BitVec.ofNat 64 n }
  | .call => f.body (m.push f.ret)
  | .iretq =>
    { m with
      rip := m.top 0
      cs := (m.top 1).setWidth 16
      rflags := m.top 2
      rsp := m.top 3
      ss := (m.top 4).setWidth 16 }

def run (f : Callee) (m : Machine) (code : List Instr) : Machine := code.foldl (exec f) m

/-- The interrupt of `m`, on the stack at `stack`: the processor aligns it and pushes the interrupted
    context, and the error code of the vectors that have one. What the gate loads into `cs`, `rip` and
    `rflags` is left out. -/
def deliver (m : Machine) (stack : BitVec 64) (err : Option (BitVec 64)) : Machine :=
  let m' := { m with rsp := stack &&& ~~~15 }
  let m' := ((((m'.push (m.ss.setWidth 64)).push m.rsp).push m.rflags).push (m.cs.setWidth 64)).push m.rip
  match err with
  | some e => m'.push e
  | none => m'

/-- The vectors for which the processor pushes an error code. -/
def hasErrorCode (vector : Nat) : Bool := vector ∈ [8, 10, 11, 12, 13, 14, 17, 21, 29, 30]

/-- The words `l` are on the stack, the first one on top. -/
structure OnStack (m : Machine) (l : List (BitVec 64)) : Prop where
  aligned : m.rsp.toNat % 8 = 0
  short : l.length ≤ 2 ^ 32
  words : ∀ i < l.length, m.top i = l.getD i 0

/-- The function returns with the stack and its `n` upper words as they were. -/
def Callee.Keeps (f : Callee) (m : Machine) (n : Nat) : Prop :=
  (exec f m .call).rsp = m.rsp ∧ ∀ i < n, (exec f m .call).top i = m.top i

section
variable {f : Callee} {m : Machine} {l ws : List (BitVec 64)} {v : BitVec 64} {r : Reg} {rs : List Reg}
variable {code code' : List Instr} {i n : Nat}

@[simp] theorem run_nil : run f m [] = m := rfl

@[simp] theorem run_cons {instr : Instr} : run f m (instr :: code) = run f (exec f m instr) code := rfl

theorem run_append : run f m (code ++ code') = run f (run f m code) code' := List.foldl_append

theorem movRsp_self : (exec f m (.movRsp r)).regs r = (exec f m (.movRsp r)).rsp := Function.update_self _ _ _

/-! ### The stack -/

theorem ofNat_mul_succ (n : Nat) : BitVec.ofNat 64 (8 * (n + 1)) = 8 + BitVec.ofNat 64 (8 * n) := by
  rw [Nat.mul_succ, Nat.add_comm, BitVec.ofNat_add]
  rfl

/-- The word above the one that `push` adds. -/
theorem slot_push : (m.push v).slot (i + 1) = m.slot i := by
  have h : m.rsp - 8 + BitVec.ofNat 64 (8 * (i + 1)) = m.rsp + BitVec.ofNat 64 (8 * i) := by
    rw [ofNat_mul_succ, ← BitVec.add_assoc, BitVec.sub_add_cancel]
  rw [Machine.slot, Machine.slot, Machine.push, h]

theorem slot_zero : m.slot 0 = m.rsp.toNat := by
  rw [Machine.slot, Nat.mul_zero, BitVec.add_zero]

/-- A word that is pushed is on top, and the others keep their order. -/
theorem OnStack.push (h : OnStack m l) (hl : l.length < 2 ^ 32) : OnStack (m.push v) (v :: l) where
  aligned := by
    have h8 : (8 : BitVec 64).toNat = 8 := rfl
    have hal := h.aligned
    rw [Machine.push]
    simp only [BitVec.toNat_sub, h8]
    omega
  short := by
    rw [List.length_cons]
    omega
  words i hi := by
    have hal := h.aligned
    cases i with
    | zero =>
      rw [Machine.top, slot_zero]
      exact Memory.read64_write64 _ _ _
    | succ i =>
      rw [List.length_cons] at hi
      rw [Machine.top, slot_push, List.getD_cons_succ, ← h.words i (by omega), Machine.top]
      refine Memory.read64_congr fun x hlo hhi => Memory.write64_of_outside ?_
      have hslot : m.slot i = (m.rsp.toNat + 8 * i) % 2 ^ 64 := by
        rw [Machine.slot, BitVec.toNat_add, BitVec.toNat_ofNat, Nat.add_mod_mod]
      have h8 : (8 : BitVec 64).toNat = 8 := rfl
      have htop : (m.rsp - 8).toNat = (2 ^ 64 - 8 + m.rsp.toNat) % 2 ^ 64 := by rw [BitVec.toNat_sub, h8]
      have hshort := h.short
      omega

theorem OnStack.drop (h : OnStack m (v :: l)) {m' : Machine} (hrsp : m'.rsp = m.rsp + 8) (hmem : m'.mem = m.mem) :
    OnStack m' l where
  aligned := by
    have h8 : (8 : BitVec 64).toNat = 8 := rfl
    have hal := h.aligned
    rw [hrsp, BitVec.toNat_add, h8]
    omega
  short := by
    have hshort := h.short
    rw [List.length_cons] at hshort
    omega
  words i hi := by
    have hw := h.words (i + 1) (by rw [List.length_cons]; omega)
    have hslot : m'.slot i = m.slot (i + 1) := by
      rw [Machine.slot, Machine.slot, hrsp, ofNat_mul_succ, BitVec.add_assoc]
    rw [Machine.top, hmem, hslot]
    exact hw

/-- Words that are not needed any more are taken off the stack at once. -/
theorem OnStack.discard (h : OnStack m (ws ++ l)) : OnStack (exec f m (.addRsp (8 * ws.length))) l := by
  induction ws generalizing m with
  | nil => exact ⟨by simpa [exec] using h.aligned, h.short, by simpa [exec, Machine.top, Machine.slot] using h.words⟩
  | cons w ws ih =>
    have hdrop : OnStack { m with rsp := m.rsp + 8 } (ws ++ l) := h.drop rfl rfl
    have hih := ih hdrop
    rw [exec, BitVec.add_assoc, ← ofNat_mul_succ] at hih
    exact hih

/-! ### Saving and restoring registers -/

/-- Pushing registers leaves them as they are, the last one on top. -/
theorem run_pushes (h : OnStack m l) (hl : l.length + rs.length ≤ 2 ^ 32) :
    OnStack (run f m (rs.map .push)) ((rs.map m.regs).reverse ++ l) ∧ (run f m (rs.map .push)).regs = m.regs := by
  induction rs generalizing m l with
  | nil => exact ⟨h, rfl⟩
  | cons r rs ih =>
    rw [List.length_cons] at hl
    have h' : OnStack (exec f m (.push r)) (m.regs r :: l) := h.push (by omega)
    obtain ⟨hs, hr⟩ := ih h' (by rw [List.length_cons]; omega)
    refine ⟨?_, hr⟩
    rw [List.map_cons, List.map_cons, List.reverse_cons, List.append_assoc]
    exact hs

theorem run_pops (g : Reg → BitVec 64) (hrs : rs.Nodup) (h : OnStack m (rs.map g ++ l)) :
    OnStack (run f m (rs.map .pop)) l ∧
      ∀ r, (run f m (rs.map .pop)).regs r = if r ∈ rs then g r else m.regs r := by
  induction rs generalizing m with
  | nil => exact ⟨h, fun r => by simp⟩
  | cons r rs ih =>
    obtain ⟨hr, hrs⟩ := List.nodup_cons.mp hrs
    have htop : m.top 0 = g r := h.words 0 (by simp)
    obtain ⟨hs, hg⟩ := ih (m := exec f m (.pop r)) hrs (h.drop rfl rfl)
    refine ⟨hs, fun r' => (hg r').trans ?_⟩
    simp only [exec, htop, List.mem_cons]
    by_cases hr' : r' = r
    · subst hr'
      simp [hr]
    · simp [hr']

theorem OnStack.call (h : OnStack m l) (hf : f.Keeps m l.length) : OnStack (exec f m .call) l where
  aligned := by
    rw [hf.1]
    exact h.aligned
  short := h.short
  words i hi := by rw [hf.2 i hi, h.words i hi]

theorem keeps_of_ret (h : OnStack m l) (hl : l.length < 2 ^ 32) (hf : ∀ m, f.body m = { m with rsp := m.rsp + 8 }) :
    f.Keeps m l.length := by
  have hcall : OnStack (exec f m .call) l := by
    rw [exec, hf]
    exact (h.push hl).drop rfl rfl
  refine ⟨?_, fun i hi => by rw [hcall.words i hi, h.words i hi]⟩
  rw [exec, hf, Machine.push]
  exact BitVec.sub_add_cancel _ _

/-! ### The frame of an interrupt -/

theorem push_rsp : (m.push v).rsp = m.rsp - 8 := rfl

theorem run_pushes_rsp : (run f m (rs.map .push)).rsp = m.rsp - BitVec.ofNat 64 (8 * rs.length) := by
  induction rs generalizing m with
  | nil => exact (BitVec.sub_zero _).symm
  | cons r rs ih =>
    rw [List.map_cons, run_cons, ih, List.length_cons, ofNat_mul_succ, exec, push_rsp, BitVec.sub_sub]

theorem align_mod (stack : BitVec 64) : (stack &&& ~~~15).toNat % 16 = 0 := by
  have hzero : stack &&& ~~~15 &&& 15 = 0 := by
    rw [BitVec.and_assoc]
    simp
  have hnat := congrArg BitVec.toNat hzero
  rw [BitVec.toNat_and] at hnat
  exact (Nat.and_two_pow_sub_one_eq_mod _ 4).symm.trans hnat

theorem align_sub_mod (stack n : BitVec 64) : ((stack &&& ~~~15) - n).toNat % 16 = (2 ^ 64 - n.toNat) % 16 := by
  have halign := align_mod stack
  rw [BitVec.toNat_sub]
  omega

/-- What the processor has pushed when it enters a stub. -/
def frameWords (m : Machine) : List (BitVec 64) := [m.rip, m.cs.setWidth 64, m.rflags, m.rsp, m.ss.setWidth 64]

variable {stack : BitVec 64} {err : Option (BitVec 64)}

theorem deliver_onStack (m : Machine) (stack : BitVec 64) (err : Option (BitVec 64)) :
    OnStack (deliver m stack err) (err.toList ++ frameWords m) := by
  have hbase : OnStack { m with rsp := stack &&& ~~~15 } [] := by
    have halign := align_mod stack
    exact ⟨by simp only; omega, Nat.zero_le _, nofun⟩
  have hframe := ((((hbase.push (v := m.ss.setWidth 64) (by simp)).push (v := m.rsp) (by simp)).push
    (v := m.rflags) (by simp)).push (v := m.cs.setWidth 64) (by simp)).push (v := m.rip) (by simp)
  cases err with
  | none => exact hframe
  | some e => exact hframe.push (by simp)

theorem deliver_regs : (deliver m stack err).regs = m.regs := by
  cases err <;> rfl

theorem deliver_rsp : (deliver m stack err).rsp = (stack &&& ~~~15) - BitVec.ofNat 64 (8 * (err.toList.length + 5)) := by
  cases err <;> simp [deliver, Machine.push, BitVec.sub_sub]

/-- `iretq` resumes the context that is on the stack. -/
theorem iretq_frame {m' : Machine} (h : OnStack m' (frameWords m)) : (exec f m' .iretq).rip = m.rip ∧
    (exec f m' .iretq).cs = m.cs ∧ (exec f m' .iretq).rflags = m.rflags ∧ (exec f m' .iretq).rsp = m.rsp ∧
    (exec f m' .iretq).ss = m.ss := by
  have hw : ∀ i < 5, m'.top i = (frameWords m).getD i 0 := h.words
  have hcs : (m.cs.setWidth 64).setWidth 16 = m.cs := by simp
  have hss : (m.ss.setWidth 64).setWidth 16 = m.ss := by simp
  refine ⟨hw 0 (by decide), ?_, hw 2 (by decide), hw 3 (by decide), ?_⟩
  · exact (congrArg (BitVec.setWidth 16) (hw 1 (by decide))).trans hcs
  · exact (congrArg (BitVec.setWidth 16) (hw 4 (by decide))).trans hss

end

end X86
