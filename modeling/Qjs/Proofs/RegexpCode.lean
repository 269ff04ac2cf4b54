import Qjs.Proofs.Utf8
import Qjs.RegexpNode

/-!
# Regular expressions: reading instructions back

Decoding the bytes of an instruction gives the instruction (`decode_encode`), with its jump cut to
32 bits.
-/

namespace Qjs.Regexp

/-! ### Numbers in bytes -/

theorem getU16_u16Bytes (v : ℕ) (rest : List ℕ) : getU16 (u16Bytes v ++ rest) = v % 65536 := by
  simp only [getU16, u16Bytes, byteAt, List.cons_append, List.getD_cons_zero, List.getD_cons_succ]
  omega

theorem getU32_u32Bytes (v : ℕ) (rest : List ℕ) : getU32 (u32Bytes v ++ rest) = v % 2 ^ 32 := by
  simp only [getU32, u32Bytes, byteAt, List.cons_append, List.getD_cons_zero, List.getD_cons_succ]
  omega

theorem toU32_lt (v : ℤ) : toU32 v < 2 ^ 32 := by
  unfold toU32
  omega

theorem getI32_i32Bytes (v : ℤ) (rest : List ℕ) :
    getI32 (i32Bytes v ++ rest) = toI32 (toU32 v) := by
  rw [getI32, i32Bytes, getU32_u32Bytes, Nat.mod_eq_of_lt (toU32_lt v)]

theorem toI32_toU32 {v : ℤ} (h : -2 ^ 31 ≤ v) (h' : v < 2 ^ 31) : toI32 (toU32 v) = v := by
  unfold toI32 toU32
  split_ifs <;> omega

@[simp] theorem length_u16Bytes (v : ℕ) : (u16Bytes v).length = 2 := rfl

@[simp] theorem length_u32Bytes (v : ℕ) : (u32Bytes v).length = 4 := rfl

@[simp] theorem length_i32Bytes (v : ℤ) : (i32Bytes v).length = 4 := rfl

@[simp] theorem length_flatMap_u32Bytes (tab : List ℕ) :
    (tab.flatMap u32Bytes).length = 4 * tab.length := by
  induction tab with
  | nil => rfl
  | cons v tab ih =>
    rw [List.flatMap_cons, List.length_append, ih, length_u32Bytes, List.length_cons]
    omega

theorem drop_flatMap_u32Bytes (tab : List ℕ) (i : ℕ) (rest : List ℕ) (h : i ≤ tab.length) :
    (tab.flatMap u32Bytes ++ rest).drop (4 * i) = (tab.drop i).flatMap u32Bytes ++ rest := by
  induction i generalizing tab with
  | zero => rfl
  | succ i ih =>
    cases tab with
    | nil => simp at h
    | cons v tab =>
      rw [Nat.mul_succ, Nat.add_comm, ← List.drop_drop, List.flatMap_cons, List.append_assoc,
        List.drop_left' (length_u32Bytes v), ih tab (by simpa using h), List.drop_succ_cons]

theorem getTab_flatMap {tab : List ℕ} (h : ∀ v ∈ tab, v < 2 ^ 32) (rest : List ℕ) :
    getTab tab.length (tab.flatMap u32Bytes ++ rest) = tab := by
  refine List.ext_getElem (by simp [getTab]) ?_
  intro i _ hi
  simp only [getTab, List.getElem_map, List.getElem_range]
  rw [drop_flatMap_u32Bytes _ _ _ hi.le, List.drop_eq_getElem_cons hi, List.flatMap_cons,
    List.append_assoc, getU32_u32Bytes, Nat.mod_eq_of_lt (h _ (List.getElem_mem hi))]

/-! ### Instructions -/

namespace Op

/-- The jump as 32 bits hold it. -/
def wrap : Op → Op
  | goto val => goto (toI32 (toU32 val))
  | split nextFirst val => split nextFirst (toI32 (toU32 val))
  | loop r val => loop r (toI32 (toU32 val))
  | loopSplit checkAdv nextFirst r limit val =>
    loopSplit checkAdv nextFirst r limit (toI32 (toU32 val))
  | lookahead neg val => lookahead neg (toI32 (toU32 val))
  | op => op

/-- The operands fit in their bytes, the jump apart. -/
def Fits : Op → Prop
  | char bs => 1 ≤ bs.length ∧ bs.length ≤ 4
  | loopSplit _ _ _ limit _ => limit < 2 ^ 32
  | setI32 _ v => v < 2 ^ 32
  | range8 tab => tab.length % 2 = 0
  | range tab => tab.length % 2 = 0 ∧ tab.length / 2 < 65536 ∧ ∀ v ∈ tab, v < 2 ^ 32
  | invalid => False
  | _ => True

/-- The jump fits in 32 bits. -/
def Near : Op → Prop
  | goto val | split _ val | loop _ val | loopSplit _ _ _ _ val | lookahead _ val =>
    -2 ^ 31 ≤ val ∧ val < 2 ^ 31
  | _ => True

theorem wrap_of_near {op : Op} (h : op.Near) : op.wrap = op := by
  cases op <;> simp only [wrap]
  all_goals rw [toI32_toU32 h.1 h.2]

@[simp] theorem size_wrap (op : Op) : op.wrap.size = op.size := by
  cases op <;> simp [wrap, size, operands]

@[simp] theorem length_encode (op : Op) : op.encode.length = op.size := rfl

theorem size_pos (op : Op) : 0 < op.size := Nat.succ_pos _

theorem take_size (op : Op) (rest : List ℕ) : (op.encode ++ rest).take op.size = op.encode :=
  List.take_left' (length_encode op)

theorem drop_size (op : Op) (rest : List ℕ) : (op.encode ++ rest).drop op.size = rest :=
  List.drop_left' (length_encode op)

theorem decode_char {bs : List ℕ} (h : 1 ≤ bs.length ∧ bs.length ≤ 4) (rest : List ℕ) :
    decode ((char bs).encode ++ rest) = char bs := by
  have hlen : bs.length = 1 ∨ bs.length = 2 ∨ bs.length = 3 ∨ bs.length = 4 := by omega
  unfold decode
  simp only [encode, code, operands, List.cons_append, byteAt, List.getD_cons_zero,
    List.drop_succ_cons, List.drop_zero]
  rcases hlen with h | h | h | h <;> simp only [h] <;> rw [← h, List.take_left]

/-- Decoding the bytes of an instruction gives the instruction. -/
theorem decode_encode {op : Op} (h : op.Fits) (rest : List ℕ) :
    decode (op.encode ++ rest) = op.wrap := by
  cases op with
  | char bs => exact decode_char h rest
  | dot => rfl
  | any => rfl
  | space neg => cases neg <;> rfl
  | lineStart multi => cases multi <;> rfl
  | lineEnd multi => cases multi <;> rfl
  | goto val =>
    change goto (getI32 (i32Bytes val ++ rest)) = _
    rw [getI32_i32Bytes]
    rfl
  | split nextFirst val =>
    have hd : decode ((split nextFirst val).encode ++ rest)
        = split nextFirst (getI32 (i32Bytes val ++ rest)) := by cases nextFirst <;> rfl
    rw [hd, getI32_i32Bytes]
    rfl
  | match_ => rfl
  | lookaheadMatch neg => cases neg <;> rfl
  | save isEnd i => cases isEnd <;> rfl
  | saveReset i j => rfl
  | loop r val =>
    change loop r (getI32 (i32Bytes val ++ rest)) = _
    rw [getI32_i32Bytes]
    rfl
  | loopSplit checkAdv nextFirst r limit val =>
    have hd : decode ((loopSplit checkAdv nextFirst r limit val).encode ++ rest)
        = loopSplit checkAdv nextFirst r (getU32 (u32Bytes limit ++ (i32Bytes val ++ rest)))
          (getI32 (i32Bytes val ++ rest)) := by
      cases checkAdv <;> cases nextFirst <;> rfl
    rw [hd, getI32_i32Bytes, getU32_u32Bytes, Nat.mod_eq_of_lt h]
    rfl
  | setI32 r v =>
    change setI32 r (getU32 (u32Bytes v ++ rest)) = _
    rw [getU32_u32Bytes, Nat.mod_eq_of_lt h]
    rfl
  | wordBoundary neg => cases neg <;> rfl
  | backReference ignoreCase i => cases ignoreCase <;> rfl
  | range8 tab =>
    change range8 ((tab ++ rest).take (2 * (tab.length / 2))) = _
    have h' : tab.length % 2 = 0 := h
    rw [List.take_left' (by omega)]
    rfl
  | range tab =>
    obtain ⟨h1, h2, h3⟩ := h
    have hd : decode ((range tab).encode ++ rest)
        = range (getTab (2 * getU16 (u16Bytes (tab.length / 2) ++ (tab.flatMap u32Bytes ++ rest)))
          (tab.flatMap u32Bytes ++ rest)) := by
      simp only [encode, operands, List.cons_append, List.append_assoc]
      rfl
    have hn : 2 * (tab.length / 2) = tab.length := by omega
    rw [hd, getU16_u16Bytes, Nat.mod_eq_of_lt h2, hn, getTab_flatMap h3]
    rfl
  | lookahead neg val =>
    have hd : decode ((lookahead neg val).encode ++ rest)
        = lookahead neg (getI32 (i32Bytes val ++ rest)) := by cases neg <;> rfl
    rw [hd, getI32_i32Bytes]
    rfl
  | setCharPos r => rfl
  | checkAdvance r => rfl
  | invalid => exact absurd h id

end Op

/-! ### Sequences of instructions -/

@[simp] theorem bytes_nil : bytes [] = [] := rfl

@[simp] theorem bytes_cons (op : Op) (ops : List Op) : bytes (op :: ops) = op.encode ++ bytes ops :=
  List.flatMap_cons

@[simp] theorem bytes_append (ops ops' : List Op) : bytes (ops ++ ops') = bytes ops ++ bytes ops' :=
  List.flatMap_append

theorem bytes_singleton (op : Op) : bytes [op] = op.encode := List.append_nil _

/-- The instructions of a node take its size. -/
@[simp] theorem length_bytes_ops (reg : ℕ → ℕ) : ∀ (k : ℕ) (a : Node),
    (bytes (a.ops reg k)).length = a.size
  | k, .nil => rfl
  | k, .op o => by
    rw [Node.ops, bytes_singleton]
    rfl
  | k, .cat a b => by
    rw [Node.ops, bytes_append, List.length_append, length_bytes_ops reg k a,
      length_bytes_ops reg k b]
    rfl
  | k, .alt a b => by
    simp only [Node.ops, bytes_append, List.length_append, length_bytes_ops reg k a,
      length_bytes_ops reg k b, bytes_singleton, Op.length_encode]
    rfl
  | k, .skip greedy a => by
    simp only [Node.ops, bytes_append, List.length_append, length_bytes_ops reg k a,
      bytes_singleton, Op.length_encode]
    rfl
  | k, .guard a => by
    simp only [Node.ops, bytes_append, List.length_append, length_bytes_ops reg (k + 1) a,
      bytes_singleton, Op.length_encode]
    rfl
  | k, .star greedy a => by
    simp only [Node.ops, bytes_append, List.length_append, length_bytes_ops reg k a,
      bytes_singleton, Op.length_encode]
    rfl
  | k, .plus greedy a => by
    simp only [Node.ops, bytes_append, List.length_append, length_bytes_ops reg k a,
      bytes_singleton, Op.length_encode]
    rfl
  | k, .times n a => by
    simp only [Node.ops, bytes_append, List.length_append, length_bytes_ops reg (k + 1) a,
      bytes_singleton, Op.length_encode]
    rfl
  | k, .counted checkAdv greedy max limit a => by
    simp only [Node.ops, bytes_append, List.length_append,
      length_bytes_ops reg (k + 1 + checkAdv.toNat) a, bytes_singleton, Op.length_encode]
    cases checkAdv <;> rfl
  | k, .look neg a => by
    simp only [Node.ops, bytes_append, List.length_append, length_bytes_ops reg k a,
      bytes_singleton, Op.length_encode]
    rfl

end Qjs.Regexp
