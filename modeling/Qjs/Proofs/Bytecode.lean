import Qjs.Bytecode

/-!
# Bytecode: reading and writing

What stands before a position does not matter for what is read or written there, so that a pass over
the bytecode can be followed instruction by instruction.
-/

namespace Qjs

theorem opcodeOf_code (op : OPCodeEnum) : opcodeOf op.code = some op := by
  cases op <;> rfl

@[simp] theorem opSize_code (op : OPCodeEnum) : opSize op.code = op.size := by
  simp [opSize, opcodeOf_code]

theorem OPCodeEnum.code_lt (op : OPCodeEnum) : op.code < 2 ^ 8 := by
  cases op <;> decide

theorem OPCodeEnum.code_injective {op op' : OPCodeEnum} (h : op.code = op'.code) : op = op' := by
  have := opcodeOf_code op
  rw [h, opcodeOf_code] at this
  exact (Option.some.inj this).symm

theorem OPCodeEnum.size_pos (op : OPCodeEnum) : 0 < op.size := by
  cases op <;> decide

/-! ### Instructions -/

@[simp] theorem Instr.encode_length (i : Instr) : i.encode.length = i.op.size := by
  rw [← i.args_length]
  rfl

@[simp] theorem encodeInstrs_nil : encodeInstrs [] = [] := rfl

@[simp] theorem encodeInstrs_cons (i : Instr) (is : List Instr) : encodeInstrs (i :: is) = i.encode ++ encodeInstrs is :=
  rfl

@[simp] theorem encodeInstrs_append (is is' : List Instr) : encodeInstrs (is ++ is') = encodeInstrs is ++ encodeInstrs is' := by
  simp [encodeInstrs]

theorem Instr.ext_iff' {i i' : Instr} : i = i' ↔ i.op = i'.op ∧ i.args = i'.args := by
  obtain ⟨op, args, h1, h2⟩ := i
  obtain ⟨op', args', h1', h2'⟩ := i'
  simp

theorem Instr.encode_lt (i : Instr) : ∀ b ∈ i.encode, b < 2 ^ 8 := by
  intro b hb
  rcases List.mem_cons.1 hb with rfl | hb
  · exact i.op.code_lt
  · exact i.args_lt b hb

/-! ### Words -/

variable (pre l : List ℕ)

theorem getU8_append_length (k : ℕ) : getU8 (pre ++ l) (pre.length + k) = getU8 l k := by
  unfold getU8
  rw [List.getD_append_right _ _ _ _ (Nat.le_add_right _ _), Nat.add_sub_cancel_left]

theorem getU16_append_length (k : ℕ) : getU16 (pre ++ l) (pre.length + k) = getU16 l k := by
  unfold getU16
  rw [Nat.add_assoc, getU8_append_length, getU8_append_length]

theorem getU32_append_length (k : ℕ) : getU32 (pre ++ l) (pre.length + k) = getU32 l k := by
  unfold getU32
  rw [Nat.add_assoc, getU16_append_length, getU16_append_length]

theorem set_append_length (k v : ℕ) : (pre ++ l).set (pre.length + k) v = pre ++ l.set k v := by
  rw [List.set_append_right _ _ (Nat.le_add_right _ _), Nat.add_sub_cancel_left]

theorem putU16_append_length (k v : ℕ) :
    putU16 (pre ++ l) (pre.length + k) v = pre ++ putU16 l k v := by
  unfold putU16
  rw [set_append_length, Nat.add_assoc, set_append_length]

@[simp] theorem putU16_length (pos v : ℕ) : (putU16 l pos v).length = l.length := by
  simp [putU16]

@[simp] theorem putU32_length (pos v : ℕ) : (putU32 l pos v).length = l.length := by
  simp [putU32]

theorem u16Bytes_lt (v : ℕ) : ∀ b ∈ u16Bytes v, b < 2 ^ 8 := by
  intro b hb
  simp only [u16Bytes, List.mem_cons, List.not_mem_nil, or_false] at hb
  rcases hb with rfl | rfl <;> omega

theorem u32Bytes_lt (v : ℕ) : ∀ b ∈ u32Bytes v, b < 2 ^ 8 := by
  intro b hb
  rcases List.mem_append.1 hb with hb | hb
  · exact u16Bytes_lt _ b hb
  · exact u16Bytes_lt _ b hb

theorem getU16_u16Bytes (v : ℕ) : getU16 (u16Bytes v) 0 = v % 2 ^ 16 := by
  simp only [getU16, getU8, u16Bytes, List.getD_cons_zero, List.getD_cons_succ, Nat.zero_add]
  omega

theorem getU32_u32Bytes (v : ℕ) : getU32 (u32Bytes v) 0 = v % 2 ^ 32 := by
  simp only [getU32, getU16, getU8, u32Bytes, u16Bytes, List.cons_append, List.nil_append,
    List.getD_cons_zero, List.getD_cons_succ, Nat.zero_add]
  omega

end Qjs
