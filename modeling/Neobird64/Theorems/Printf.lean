import Neobird64.Printf
import Neobird64.Theorems.Numerals
import Mathlib.Data.List.TakeWhile
import Mathlib.Data.Nat.Find

/-! `printf` against a reference that first splits the format string into literal text and groups, and then writes
    the parts in order. -/

namespace Neobird64
open Numeral Transducer

/-! ### The reference -/

/-- A part of a format string. -/
inductive Segment
  | text (s : List Char)
  | group (specifiers : List Char) (closed : Bool)

/-- A group goes from a "{" up to the next "}", or up to the end when there is none. -/
def parse : List Char → List Segment
  | [] => []
  | c :: rest =>
    if c = '{' then
      .group (rest.takeWhile (· ≠ '}')) (decide ('}' ∈ rest)) :: parse (rest.dropWhile (· ≠ '}')).tail
    else .text (c :: rest.takeWhile (· ≠ '{')) :: parse (rest.dropWhile (· ≠ '{'))
termination_by l => l.length
decreasing_by
  · rw [List.length_tail, List.length_cons]
    exact Nat.lt_succ_of_le (Nat.le_trans (Nat.sub_le _ _) (List.length_dropWhile_le _ rest))
  · exact Nat.lt_succ_of_le (List.length_dropWhile_le _ rest)

def Segment.closed : Segment → Bool
  | .text _ => true
  | .group _ closed => closed

/-- Every group of the format string is closed. -/
def Closed (formatString : List Char) : Prop := (parse formatString).all Segment.closed = true

/-- The specifiers that take an argument. -/
def takesArg (c : Char) : Bool := c ∈ ['d', 'i', 'x', 's', 'k', 'c']

def Segment.argCount : Segment → Nat
  | .text _ => 0
  | .group specifiers _ => specifiers.countP takesArg

def argCount (formatString : List Char) : Nat := ((parse formatString).map Segment.argCount).sum

open Classical in
/-- The string at an address, up to its first NUL. -/
noncomputable def stringAt (mem : VirtualMemory) (p : Word) : Except PrintExit (List Char) :=
  if h : ∃ n, mem (p + BitVec.ofNat 64 n) = 0 then
    .ok ((List.range (Nat.find h)).map fun i => byteChar (mem (p + BitVec.ofNat 64 i)))
  else .error .hang

noncomputable def renderArg (mem : VirtualMemory) (arg : Word) : Char → Except PrintExit (List Char)
  | 'd' | 'i' => .ok (numeral decimal arg.toNat)
  | 'x' => .ok (numeral hexadecimal arg.toNat)
  | 'c' => .ok [byteChar (arg.setWidth 8)]
  | _ => stringAt mem arg

noncomputable def renderSpecifier (mem : VirtualMemory) (args : List Word) (c : Char) :
    Except PrintExit (List Word × List Char) :=
  if takesArg c then
    match args with
    | [] => .error .noArgument
    | arg :: args => (renderArg mem arg c).map fun text => (args, text)
  else .ok (args, if c = 'n' then ['\n'] else [])

noncomputable def renderSegment (mem : VirtualMemory) (args : List Word) : Segment → Except PrintExit (List Word × List Char)
  | .text s => .ok (args, s)
  | .group specifiers _ => run (renderSpecifier mem) args specifiers

/-- The arguments that are left, and the text. -/
noncomputable def render (mem : VirtualMemory) (args : List Word) (segments : List Segment) :
    Except PrintExit (List Word × List Char) :=
  run (renderSegment mem) args segments

/-- `printf` of a format string and arguments is the reference. It takes as many arguments as there are specifiers
    for one, and each call continues where a call whose groups are closed stopped. -/
structure PrintfRefines (mem : VirtualMemory) (formatString : List Char) (args : List Word) : Prop where
  output : printf mem formatString args = render mem args (parse formatString)
  /-- Addresses wrap around, so with a NUL anywhere every string ends. -/
  consumed : argCount formatString ≤ args.length → (∃ p, mem p = 0) →
    ∃ out, printf mem formatString args = .ok (args.drop (argCount formatString), out)
  append : Closed formatString → ∀ g, printf mem (formatString ++ g) args =
    (printf mem formatString args).bind fun r => (printf mem g r.1).map fun r' => (r'.1, r.2 ++ r'.2)

section
variable {mem : VirtualMemory} {formatString s l : List Char} {args : List Word} {c : Char} {p : Word}

/-! ### Strings -/

/-- Addresses wrap around after 2^64 bytes. -/
theorem find_lt (h : ∃ n, mem (p + BitVec.ofNat 64 n) = 0) : Nat.find h < 2 ^ 64 := by
  have hwrap : mem (p + BitVec.ofNat 64 (Nat.find h % 2 ^ 64)) = 0 := by
    have hmod : BitVec.ofNat 64 (Nat.find h % 2 ^ 64) = BitVec.ofNat 64 (Nat.find h) := by
      apply BitVec.eq_of_toNat_eq
      simp only [BitVec.toNat_ofNat, Nat.mod_mod]
    rw [hmod]
    exact Nat.find_spec h
  exact Nat.lt_of_le_of_lt (Nat.find_min' h hwrap) (Nat.mod_lt _ (by decide))

theorem strlen_eq (h : ∃ n, mem (p + BitVec.ofNat 64 n) = 0) : strlen mem p = .ok (Nat.find h) := by
  have hround : ∀ len ≤ Nat.find h, decide (mem (p + BitVec.ofNat 64 len) ≠ 0) = true →
      ∃ len', (.ok (len + 1) : Except PrintExit Nat) = .ok len' ∧ len' ≤ Nat.find h ∧
        Nat.find h - len' < Nat.find h - len := by
    intro len hle hcond
    have hne : mem (p + BitVec.ofNat 64 len) ≠ 0 := of_decide_eq_true hcond
    have hlt : len < Nat.find h := by
      rcases Nat.lt_or_eq_of_le hle with hlt | rfl
      · exact hlt
      · exact absurd (Nat.find_spec h) hne
    exact ⟨len + 1, rfl, hlt, by omega⟩
  obtain ⟨len, hlen, hle, hstop⟩ := Loop.whileLoop_total (· ≤ Nat.find h) (fun len => Nat.find h - len) hround
    (Nat.zero_le _) (find_lt h)
  have hnul : mem (p + BitVec.ofNat 64 len) = 0 := by simpa using hstop
  rw [strlen]
  unfold strlenFuel
  rw [hlen, Nat.le_antisymm hle (Nat.find_min' h hnul)]

theorem strlen_hang (h : ¬∃ n, mem (p + BitVec.ofNat 64 n) = 0) : strlen mem p = .error .hang := by
  refine Loop.whileLoop_hang (fun _ => True) (fun len _ => ⟨?_, len + 1, rfl, trivial⟩) trivial
  exact decide_eq_true fun hnul => h ⟨len, hnul⟩

theorem printStr_eq (p : Word) : printStr mem p = stringAt mem p := by
  unfold printStr stringAt
  split
  · next h =>
    rw [strlen_eq h, Loop.ok_bind]
    congr
  · next h =>
    rw [strlen_hang h]
    rfl

theorem stringAt_of_nul {p : Word} {n : Nat} (hnul : mem (p + BitVec.ofNat 64 n) = 0)
    (h : ∀ i < n, mem (p + BitVec.ofNat 64 i) ≠ 0) :
    stringAt mem p = .ok ((List.range n).map fun i => byteChar (mem (p + BitVec.ofNat 64 i))) := by
  have hex : ∃ n, mem (p + BitVec.ofNat 64 n) = 0 := ⟨n, hnul⟩
  have hfind : Nat.find hex = n := (Nat.find_eq_iff hex).mpr ⟨hnul, h⟩
  rw [stringAt, dif_pos hex, hfind]

/-! ### One character -/

theorem renderSpecifier_cons {arg : Word} (hc : takesArg c = true) :
    renderSpecifier mem (arg :: args) c = (renderArg mem arg c).map fun text => (args, text) := if_pos hc

theorem renderSpecifier_of_not (hc : ¬takesArg c = true) :
    renderSpecifier mem args c = .ok (args, if c = 'n' then ['\n'] else []) := if_neg hc

theorem vaArg_eq {print : Word → Except PrintExit (List Char)} (hc : takesArg c = true)
    (hprint : ∀ arg, print arg = renderArg mem arg c) : vaArg print (.formatSpecifier, args) =
    (renderSpecifier mem args c).map fun r => ((.formatSpecifier, r.1), r.2) := by
  cases args with
  | nil =>
    unfold renderSpecifier
    rw [if_pos hc]
    rfl
  | cons arg args =>
    rw [vaArg, hprint, renderSpecifier_cons hc]
    cases renderArg mem arg c <;> rfl

theorem printfStep_specifier (hc : c ≠ '}') : printfStep mem (.formatSpecifier, args) c =
    (renderSpecifier mem args c).map fun r => ((.formatSpecifier, r.1), r.2) := by
  unfold printfStep
  simp only
  split
  · rfl
  · exact vaArg_eq rfl printStr_eq
  · exact vaArg_eq rfl printInt_eq
  · exact vaArg_eq rfl printInt_eq
  · exact vaArg_eq rfl printStr_eq
  · exact vaArg_eq rfl fun _ => rfl
  · exact vaArg_eq rfl printHex_eq
  · rfl
  · exact absurd rfl hc
  · next hn hk hd hi hs hch hx _ _ =>
    have hnone : ¬takesArg c = true := by
      unfold takesArg
      simp only [decide_eq_true_eq, List.mem_cons, List.not_mem_nil, or_false]
      rintro (h | h | h | h | h | h)
      exacts [hd h, hi h, hx h, hs h, hk h, hch h]
    rw [renderSpecifier_of_not hnone, if_neg hn]
    rfl

theorem printfStep_text (hc : c ≠ '{') : printfStep mem (.normal, args) c = .ok ((.normal, args), [c]) := by
  unfold printfStep
  simp only

/-! ### One segment -/

theorem run_text (h : ∀ c ∈ s, c ≠ '{') : run (printfStep mem) (.normal, args) s = .ok ((.normal, args), s) := by
  induction s with
  | nil => rfl
  | cons c s ih =>
    rw [run_cons_of_ok (printfStep_text (h c List.mem_cons_self)), ih fun c hc => h c (List.mem_cons_of_mem _ hc)]
    rfl

theorem run_group (h : ∀ c ∈ s, c ≠ '}') : run (printfStep mem) (.formatSpecifier, args) s =
    (run (renderSpecifier mem) args s).map fun r => ((.formatSpecifier, r.1), r.2) :=
  run_of_steps (fun args => (PrintfState.formatSpecifier, args)) fun c hc _ => printfStep_specifier (h c hc)

/-- The state after a format string: a group that is not closed is the last part. -/
def endState (segments : List Segment) : PrintfState :=
  if segments.all Segment.closed then .normal else .formatSpecifier

theorem ne_of_mem_takeWhile {d : Char} (h : c ∈ l.takeWhile (· ≠ d)) : c ≠ d := by
  have := List.mem_takeWhile_imp h
  simpa using this

/-- The first "d" in a list, if there is one. -/
theorem dropWhile_ne (d : Char) (l : List Char) : (d ∉ l ∧ l.dropWhile (· ≠ d) = []) ∨
    (d ∈ l ∧ l.dropWhile (· ≠ d) = d :: (l.dropWhile (· ≠ d)).tail) := by
  induction l with
  | nil => exact .inl ⟨List.not_mem_nil, rfl⟩
  | cons c l ih =>
    by_cases hc : c = d
    · subst hc
      refine .inr ⟨List.mem_cons_self, ?_⟩
      rw [List.dropWhile_cons_of_neg (by simp), List.tail_cons]
    · rw [List.dropWhile_cons_of_pos (by simpa using hc), List.mem_cons, or_iff_right (Ne.symm hc)]
      exact ih

theorem render_text {segments : List Segment} : render mem args (.text s :: segments) =
    (render mem args segments).map fun r => (r.1, s ++ r.2) := run_cons_of_ok rfl

theorem render_group {closed : Bool} {segments : List Segment} : render mem args (.group s closed :: segments) =
    (run (renderSpecifier mem) args s).bind fun r => (render mem r.1 segments).map fun r' => (r'.1, r.2 ++ r'.2) :=
  run_cons

/-! ### All segments -/

theorem run_parse : run (printfStep mem) (.normal, args) formatString =
    (render mem args (parse formatString)).map fun r => ((endState (parse formatString), r.1), r.2) := by
  induction formatString using parse.induct generalizing args with
  | case1 =>
    rw [parse]
    rfl
  | case2 rest ih =>
    have hspecifiers : ∀ c ∈ rest.takeWhile (· ≠ '}'), c ≠ '}' := fun c hc => ne_of_mem_takeWhile hc
    have hopen : printfStep mem (.normal, args) '{' = .ok ((.formatSpecifier, args), []) := rfl
    rw [run_cons_of_silent hopen, parse, if_pos rfl, render_group]
    nth_rewrite 1 [← List.takeWhile_append_dropWhile (p := (· ≠ '}')) (l := rest)]
    rw [run_append, run_group hspecifiers]
    rcases dropWhile_ne '}' rest with ⟨hmem, hrest⟩ | ⟨hmem, hrest⟩
    · -- No "}" follows, and the group is the last part.
      rw [hrest, decide_eq_false hmem, List.tail_nil, parse]
      cases run (renderSpecifier mem) args (rest.takeWhile (· ≠ '}')) <;> rfl
    · have hclose : ∀ args, printfStep mem (.formatSpecifier, args) '}' = .ok ((.normal, args), []) := fun _ => rfl
      rw [decide_eq_true hmem]
      cases run (renderSpecifier mem) args (rest.takeWhile (· ≠ '}')) with
      | error e => rfl
      | ok r =>
        simp only [Except.map, Except.bind]
        rw [hrest, run_cons_of_silent (hclose r.1), List.tail_cons, ih]
        cases render mem r.1 (parse (rest.dropWhile (· ≠ '}')).tail) <;> rfl
  | case3 c rest hc ih =>
    have htext : ∀ d ∈ c :: rest.takeWhile (· ≠ '{'), d ≠ '{' := by
      intro d hd
      rcases List.mem_cons.mp hd with rfl | hd
      · exact hc
      · exact ne_of_mem_takeWhile hd
    have hsplit : c :: rest = (c :: rest.takeWhile (· ≠ '{')) ++ rest.dropWhile (· ≠ '{') := by
      rw [List.cons_append, List.takeWhile_append_dropWhile]
    rw [parse, if_neg hc, render_text, hsplit, run_append, run_text htext]
    simp only [Except.bind, ih]
    cases render mem args (parse (rest.dropWhile (· ≠ '{'))) <;> rfl

/-! ### The arguments -/

theorem renderArg_ok (hnul : ∃ p, mem p = 0) (arg : Word) (c : Char) : ∃ text, renderArg mem arg c = .ok text := by
  have hstring : ∃ text, stringAt mem arg = .ok text := by
    obtain ⟨p, hp⟩ := hnul
    have hreach : ∃ n, mem (arg + BitVec.ofNat 64 n) = 0 := by
      refine ⟨(p - arg).toNat, ?_⟩
      rw [BitVec.ofNat_toNat, BitVec.setWidth_eq, BitVec.add_comm, BitVec.sub_add_cancel]
      exact hp
    exact ⟨_, dif_pos hreach⟩
  unfold renderArg
  split
  · exact ⟨_, rfl⟩
  · exact ⟨_, rfl⟩
  · exact ⟨_, rfl⟩
  · exact ⟨_, rfl⟩
  · exact hstring

theorem sum_takesArg (s : List Char) : (s.map fun c => if takesArg c then 1 else 0).sum = s.countP takesArg := by
  induction s with
  | nil => rfl
  | cons c s ih => rw [List.map_cons, List.sum_cons, ih, List.countP_cons, Nat.add_comm]

theorem renderSpecifier_consumes (hnul : ∃ p, mem p = 0) (c : Char) (args : List Word)
    (h : (if takesArg c then 1 else 0) ≤ args.length) :
    ∃ out, renderSpecifier mem args c = .ok (args.drop (if takesArg c then 1 else 0), out) := by
  by_cases hc : takesArg c = true
  · rw [if_pos hc] at h ⊢
    obtain ⟨arg, args, rfl⟩ := List.exists_cons_of_length_pos h
    obtain ⟨text, htext⟩ := renderArg_ok hnul arg c
    exact ⟨text, by rw [renderSpecifier_cons hc, htext]; rfl⟩
  · rw [if_neg hc]
    exact ⟨_, renderSpecifier_of_not hc⟩

theorem renderSegment_consumes (hnul : ∃ p, mem p = 0) (segment : Segment) (args : List Word)
    (h : segment.argCount ≤ args.length) : ∃ out, renderSegment mem args segment = .ok (args.drop segment.argCount, out) := by
  cases segment with
  | text s => exact ⟨s, rfl⟩
  | group specifiers closed =>
    rw [Segment.argCount, ← sum_takesArg] at h ⊢
    exact run_consumes _ (renderSpecifier_consumes hnul) h

/-! ### The refinement -/

theorem printf_eq_render : printf mem formatString args = render mem args (parse formatString) := by
  rw [printf, run_parse]
  cases render mem args (parse formatString) <;> rfl

theorem printf_append (h : Closed formatString) (g : List Char) : printf mem (formatString ++ g) args =
    (printf mem formatString args).bind fun r => (printf mem g r.1).map fun r' => (r'.1, r.2 ++ r'.2) := by
  have hend : endState (parse formatString) = .normal := if_pos h
  rw [printf, run_append, run_parse, hend, printf_eq_render]
  cases render mem args (parse formatString) with
  | error e => rfl
  | ok r =>
    simp only [Except.map, Except.bind, printf]
    cases run (printfStep mem) (.normal, r.1) g <;> rfl

theorem printf_refines (mem : VirtualMemory) (formatString : List Char) (args : List Word) :
    PrintfRefines mem formatString args where
  output := printf_eq_render
  consumed h hnul := by
    rw [printf_eq_render]
    exact run_consumes Segment.argCount (renderSegment_consumes hnul) h
  append h g := printf_append h g

end

example : printf (fun _ => 0) "gsi {d} at 0x{xn}".toList [2, 0xfec00000] = .ok ([], "gsi 2 at 0xFEC00000\n".toList) := by
  decide +kernel

/-! ### Signed arguments -/

/-- The number that a signed decimal numeral stands for. -/
def readSigned : List Char → Option Int
  | '-' :: text => (read decimal text).map fun n => -(n : Int)
  | text => (read decimal text).map fun n => (n : Int)

/-- Wherever the specifier takes the value as its argument, in any call of `printf`, what is written for it reads
    back as the value. -/
def PrintsSigned (mem : VirtualMemory) (c : Char) (v : Word) : Prop :=
  ∀ before args rest out, run (printfStep mem) (.normal, args) before = .ok ((.formatSpecifier, v :: rest), out) →
    ∃ text, run (printfStep mem) (.normal, args) (before ++ [c]) = .ok ((.formatSpecifier, rest), out ++ text) ∧
      readSigned text = some v.toInt

section
variable {mem : VirtualMemory} {c : Char} {v : Word}

theorem readSigned_numeral (n : Nat) : readSigned (numeral decimal n) = some (n : Int) := by
  have hvalue := (canonical_numeral (by decide : 1 < decimal.base) n).value
  generalize numeral decimal n = text at hvalue
  unfold readSigned
  split
  · next text =>
    rw [read_eq_none (by decide)] at hvalue
    cases hvalue
  · rw [hvalue]
    rfl

theorem toInt_eq_toNat_iff : (v.toNat : Int) = v.toInt ↔ 0 ≤ v.toInt := by
  have hlt := v.isLt
  rw [BitVec.toInt_eq_toNat_cond]
  split
  · exact iff_of_true rfl (Int.natCast_nonneg _)
  · constructor
    · intro h
      omega
    · intro h
      omega

theorem printsSigned_iff (hc : ∀ rest, printfStep mem (.formatSpecifier, v :: rest) c =
    .ok ((.formatSpecifier, rest), numeral decimal v.toNat)) : PrintsSigned mem c v ↔ 0 ≤ v.toInt := by
  rw [← toInt_eq_toNat_iff]
  have hrun : ∀ before args rest out, run (printfStep mem) (.normal, args) before = .ok ((.formatSpecifier, v :: rest), out) →
      run (printfStep mem) (.normal, args) (before ++ [c]) =
        .ok ((.formatSpecifier, rest), out ++ numeral decimal v.toNat) := by
    intro before args rest out hbefore
    rw [run_append, hbefore]
    simp only [Except.bind, run_singleton, hc]
    rfl
  constructor
  · intro h
    obtain ⟨text, htext, hread⟩ := h ['{'] [v] [] [] rfl
    have hnumeral : numeral decimal v.toNat = text := by
      rw [hrun ['{'] [v] [] [] rfl] at htext
      simpa using htext
    rw [← hnumeral, readSigned_numeral] at hread
    exact Option.some.inj hread
  · intro hv before args rest out hbefore
    exact ⟨_, hrun before args rest out hbefore, by rw [readSigned_numeral, hv]⟩

theorem printfStep_decimal (hc : c = 'd' ∨ c = 'i') (rest : List Word) : printfStep mem (.formatSpecifier, v :: rest) c =
    .ok ((.formatSpecifier, rest), numeral decimal v.toNat) := by
  rcases hc with rfl | rfl
  · exact (printfStep_specifier (by decide)).trans rfl
  · exact (printfStep_specifier (by decide)).trans rfl

/-- The parameter of `print_int` is unsigned, so the numeral is that of the value only from 0 on. -/
theorem signedPrinted_iff (mem : VirtualMemory) (v : Word) :
    (PrintsSigned mem 'd' v ↔ 0 ≤ v.toInt) ∧ (PrintsSigned mem 'i' v ↔ 0 ≤ v.toInt) :=
  ⟨printsSigned_iff (printfStep_decimal (.inl rfl)), printsSigned_iff (printfStep_decimal (.inr rfl))⟩

end

/-- -1 is written as 2^64 - 1. -/
theorem minus_one_unsigned :
    printf (fun _ => 0) ['{', 'd', '}'] [-1] = .ok ([], "18446744073709551615".toList) ∧
      ¬PrintsSigned (fun _ => 0) 'd' (-1) := by
  refine ⟨by decide +kernel, fun h => ?_⟩
  have hprint : run (printfStep fun _ => 0) (.normal, [-1]) ['{', 'd'] =
      .ok ((.formatSpecifier, []), "18446744073709551615".toList) := by
    decide +kernel
  obtain ⟨text, htext, hread⟩ := h ['{'] [-1] [] [] rfl
  rw [List.singleton_append, hprint] at htext
  cases htext
  revert hread
  decide

end Neobird64
