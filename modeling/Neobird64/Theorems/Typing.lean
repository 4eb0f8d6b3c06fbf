import Neobird64.Theorems.InterruptRun

/-! Which texts can be typed. The left Shift key and Caps Lock only change letters, and `toupper` has no case for `q`, so
    there is no key for an upper-case Q and none for the characters above the digits. -/

namespace Neobird64

/-- The letters in upper case but for Q. -/
def upperCase : List Char := [
  'A', 'B', 'C', 'D', 'E', 'F', 'G', 'H', 'I', 'J', 'K', 'L', 'M',
  'N', 'O', 'P', 'R', 'S', 'T', 'U', 'V', 'W', 'X', 'Y', 'Z']

/-- The characters of the keys, and the letters in upper case but for Q. -/
def typable : List Char := asciiTable.filter (· ≠ '\x00') ++ upperCase

/-- The scancode leads to no read behind `ascii_table`. -/
def InTable (data : BitVec 8) : Prop := data < 0x3B ∨ 0x58 < data

instance (data : BitVec 8) : Decidable (InTable data) := inferInstanceAs (Decidable (_ ∨ _))

section
variable {behind behind' : Nat → Char} {state : KeyboardState} {data : BitVec 8} {bytes : List (BitVec 8)} {text : List Char}
variable {c : Char}

/-- The state of the keyboard after a sequence of scancodes. -/
def stateAfter (behind : Nat → Char) (state : KeyboardState) (bytes : List (BitVec 8)) : KeyboardState :=
  bytes.foldl (fun state data => (ps2Handler behind state data).1) state

theorem typed_append (bytes bytes' : List (BitVec 8)) (state : KeyboardState) : typed behind state (bytes ++ bytes') =
    typed behind state bytes ++ typed behind (stateAfter behind state bytes) bytes' := by
  induction bytes generalizing state with
  | nil => rfl
  | cons data bytes ih => rw [List.cons_append, typed, typed, ih, List.append_assoc, stateAfter, stateAfter, List.foldl_cons]

theorem ps2Handler_of_inTable (h : InTable data) (state : KeyboardState) (behind behind' : Nat → Char) :
    ps2Handler behind' state data = ps2Handler behind state data :=
  ps2Handler_of_agree fun i hi hge => absurd (handlerReads_inside.mpr h i hi) (Nat.not_lt.mpr hge)

theorem inTable_of_readsOk (h : TableReadsOk behind bytes) : ∀ data ∈ bytes, InTable data := by
  intro data hdata
  obtain ⟨before, after, rfl⟩ := List.append_of_mem hdata
  exact handlerReads_inside.mp (h before data ⟨after, by simp⟩)

theorem readsOk_of_inTable (h : ∀ data ∈ bytes, InTable data) : TableReadsOk behind bytes := by
  rintro before data ⟨after, rfl⟩
  exact handlerReads_inside.mpr (h data (by simp))

theorem typed_of_inTable (h : ∀ data ∈ bytes, InTable data) (state : KeyboardState) (behind behind' : Nat → Char) :
    typed behind' state bytes = typed behind state bytes ∧ stateAfter behind' state bytes = stateAfter behind state bytes := by
  induction bytes generalizing state with
  | nil => exact ⟨rfl, rfl⟩
  | cons data bytes ih =>
    have hdata : ps2Handler behind' state data = ps2Handler behind state data :=
      ps2Handler_of_inTable (h data List.mem_cons_self) state behind behind'
    obtain ⟨htyped, hstate⟩ := ih (fun d hd => h d (List.mem_cons_of_mem _ hd)) (ps2Handler behind state data).1
    refine ⟨?_, ?_⟩
    · rw [typed, typed, hdata, htyped]
    · rw [stateAfter, stateAfter, List.foldl_cons, List.foldl_cons, hdata]
      exact hstate

/-! ### Each scancode and each character -/

theorem printed_table : ∀ i < 0x3B, ∀ state ∈ [KeyboardState.normal, .shift, .caps],
    ∀ c ∈ printed (ps2Handler (fun _ => '\x00') state (BitVec.ofNat 8 i)).2, c ∈ typable := by
  have hall : ∀ i < 0x3B, ∀ state ∈ [KeyboardState.normal, .shift, .caps],
      ((printed (ps2Handler (fun _ => '\x00') state (BitVec.ofNat 8 i)).2).all fun c => c ∈ typable) = true := by
    decide +kernel
  intro i hi state hstate c hc
  exact of_decide_eq_true (List.all_eq_true.mp (hall i hi state hstate) c hc)

/-- The release of a key prints nothing. -/
theorem printed_release (h : 0x58 < data) : printed (ps2Handler behind state data).2 = [] := by
  have hle : data.setWidth 16 > 0x58 := by
    rw [gt_iff_lt, BitVec.lt_def, toNat_setWidth16]
    exact h
  unfold ps2Handler
  simp only
  generalize (if data.setWidth 16 = LEFT_SHIFT_RELEASED ∧ state ≠ .caps then KeyboardState.normal else state) = now
  split
  · rfl
  · rw [ps2Translate2ascii, if_pos hle]
    rfl

/-- Each key, and each key while Shift is held, types its character and leaves the keyboard in the normal state. -/
theorem key_typed : ∀ i < 0x3A, asciiTable.getD i '\x00' ≠ '\x00' → InTable (BitVec.ofNat 8 i) ∧
    (typed (fun _ => '\x00') .normal [BitVec.ofNat 8 i] = [asciiTable.getD i '\x00'] ∧
      stateAfter (fun _ => '\x00') .normal [BitVec.ofNat 8 i] = .normal) ∧
    (typed (fun _ => '\x00') .normal [0x2A, BitVec.ofNat 8 i, 0xAA] = [toupper (asciiTable.getD i '\x00')] ∧
      stateAfter (fun _ => '\x00') .normal [0x2A, BitVec.ofNat 8 i, 0xAA] = .normal) := by
  decide +kernel

theorem exists_letter : ∀ c ∈ upperCase, ∃ i < 0x3A, asciiTable.getD i '\x00' ≠ '\x00' ∧ toupper (asciiTable.getD i '\x00') = c := by
  have hall : (upperCase.all fun c =>
      decide (∃ i : Nat, i < 0x3A ∧ asciiTable.getD i '\x00' ≠ '\x00' ∧ toupper (asciiTable.getD i '\x00') = c)) = true := by
    decide +kernel
  exact fun c hc => of_decide_eq_true (List.all_eq_true.mp hall c hc)

theorem printed_typable (h : InTable data) (hc : c ∈ printed (ps2Handler behind state data).2) : c ∈ typable := by
  have hstate : state ∈ [KeyboardState.normal, .shift, .caps] := by
    cases state <;> decide
  rcases h with hlt | hgt
  · have hdata : data = BitVec.ofNat 8 data.toNat := by
      rw [BitVec.ofNat_toNat, BitVec.setWidth_eq]
    rw [ps2Handler_of_inTable (Or.inl hlt) state (fun _ => '\x00') behind, hdata] at hc
    exact printed_table data.toNat hlt state hstate c hc
  · rw [printed_release hgt] at hc
    cases hc

/-! ### Texts -/

theorem typed_typable (h : ∀ data ∈ bytes, InTable data) (state : KeyboardState) (hc : c ∈ typed behind state bytes) :
    c ∈ typable := by
  induction bytes generalizing state with
  | nil => cases hc
  | cons data bytes ih =>
    rcases List.mem_append.mp hc with hc | hc
    · exact printed_typable (h data List.mem_cons_self) hc
    · exact ih (fun d hd => h d (List.mem_cons_of_mem _ hd)) _ hc

/-- A character comes from its own key, or from the key of its letter while Shift is held. -/
theorem exists_keys (hc : c ∈ typable) : ∃ keys, (∀ data ∈ keys, InTable data) ∧
    typed (fun _ => '\x00') .normal keys = [c] ∧ stateAfter (fun _ => '\x00') .normal keys = .normal := by
  rcases List.mem_append.mp hc with hc | hc
  · obtain ⟨hmem, hne⟩ := List.mem_filter.mp hc
    obtain ⟨i, hi, rfl⟩ := List.mem_iff_getElem.mp hmem
    have hget : asciiTable.getD i '\x00' = asciiTable[i] := List.getD_eq_getElem asciiTable '\x00' hi
    obtain ⟨hin, hkey, -⟩ := key_typed i hi (by rw [hget]; exact of_decide_eq_true hne)
    rw [hget] at hkey
    exact ⟨[BitVec.ofNat 8 i], fun d hd => List.mem_singleton.mp hd ▸ hin, hkey⟩
  · obtain ⟨i, hi, hne, rfl⟩ := exists_letter c hc
    obtain ⟨hin, -, hkey⟩ := key_typed i hi hne
    refine ⟨[0x2A, BitVec.ofNat 8 i, 0xAA], fun d hd => ?_, hkey⟩
    simp only [List.mem_cons, List.not_mem_nil, or_false] at hd
    rcases hd with rfl | rfl | rfl
    · decide
    · exact hin
    · decide

/-- The keys for one character after the other. -/
theorem exists_typed (behind : Nat → Char) (h : ∀ c ∈ text, c ∈ typable) :
    ∃ bytes, (∀ data ∈ bytes, InTable data) ∧ typed behind .normal bytes = text := by
  induction text with
  | nil => exact ⟨[], nofun, rfl⟩
  | cons c text ih =>
    obtain ⟨keys, hin, htyped, hstate⟩ := exists_keys (h c List.mem_cons_self)
    obtain ⟨bytes, hin', htyped'⟩ := ih fun d hd => h d (List.mem_cons_of_mem _ hd)
    obtain ⟨hkeys, hafter⟩ := typed_of_inTable hin .normal (fun _ => '\x00') behind
    refine ⟨keys ++ bytes, fun d hd => (List.mem_append.mp hd).elim (hin d) (hin' d), ?_⟩
    rw [typed_append, hkeys, htyped, hafter, hstate, htyped']
    rfl

/-- The texts that can be typed, without keys whose scancode leads behind the table, are those of typable characters. -/
theorem typed_iff (behind : Nat → Char) (text : List Char) :
    (∃ bytes, TableReadsOk behind bytes ∧ typed behind .normal bytes = text) ↔ ∀ c ∈ text, c ∈ typable := by
  constructor
  · rintro ⟨bytes, hreads, rfl⟩ c hc
    exact typed_typable (inTable_of_readsOk hreads) .normal hc
  · intro h
    obtain ⟨bytes, hin, htyped⟩ := exists_typed behind h
    exact ⟨bytes, readsOk_of_inTable hin, htyped⟩

end

example : 'Q' ∉ typable ∧ '!' ∉ typable ∧ 'W' ∈ typable := by decide

end Neobird64
