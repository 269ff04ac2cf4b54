import Qjs.Proofs.RegexpAlloc

/-!
# Regular expressions: the loops of a program

Where the code of a tree stands, its instructions are read one after the other (`listing_node`), and
behind it the same loops are open as before it (`Node.atLoops`).
-/

namespace Qjs.Regexp

variable {code : List ℕ} {cc p k : ℕ} {o : Op} {ops ops' : List Op} {loops : List ℕ}

/-! ### Listings -/

/-- The instructions stand in the code from `p` on. -/
def Listing (code : List ℕ) : ℕ → List Op → Prop
  | _, [] => True
  | p, o :: ops => Op.decode (code.drop p) = o ∧ Listing code (p + o.size) ops

@[simp] theorem listing_nil : Listing code p [] := trivial

@[simp] theorem listing_singleton : Listing code p [o] ↔ Op.decode (code.drop p) = o :=
  and_iff_left trivial

theorem listing_append : ∀ {ops ops' : List Op} {p : ℕ}, Listing code p (ops ++ ops') ↔
    Listing code p ops ∧ Listing code (p + (bytes ops).length) ops'
  | [], _, _ => (and_iff_right trivial).symm
  | o :: ops, ops', p => by
    rw [List.cons_append, Listing, Listing, listing_append, bytes_cons, List.length_append,
      Op.length_encode, Nat.add_assoc, and_assoc]

theorem listing_of_code : ∀ {ops : List Op} {p : ℕ} {rest : List ℕ},
    (∀ o ∈ ops, o.Fits ∧ o.Near) → code.drop p = bytes ops ++ rest → Listing code p ops
  | [], _, _, _, _ => trivial
  | o :: ops, p, rest, ho, h => by
    rw [bytes_cons, List.append_assoc] at h
    obtain ⟨hf, hn⟩ := ho o List.mem_cons_self
    have hnext : code.drop (p + o.size) = bytes ops ++ rest := by
      rw [← List.drop_drop, h, Op.drop_size]
    refine ⟨?_, listing_of_code (fun x hx => ho x (List.mem_cons_of_mem o hx)) hnext⟩
    rw [h, Op.decode_encode hf, Op.wrap_of_near hn]

/-! ### The instructions of a tree fit -/

theorem Op.Plain.near (h : o.Plain cc) : o.Near := by
  cases o with
  | goto | split | loop | loopSplit | lookahead => exact absurd h id
  | _ => trivial

/-- Jumps go no further than the node. -/
theorem Node.ops_fit (reg : ℕ → ℕ) : ∀ {a : Node} {k : ℕ}, a.Ok cc → a.size < 2 ^ 31 →
    ∀ o ∈ a.ops reg k, o.Fits ∧ o.Near
  | .nil, _, _, _, _, ho => by cases ho
  | .op o, _, h, _, x, hx => by
    rw [Node.ops, List.mem_singleton] at hx
    rw [hx]
    exact ⟨h.fits, h.near⟩
  | .cat a b, k, h, hs, x, hx => by
    rw [Node.size] at hs
    rcases List.mem_append.1 hx with hx | hx
    · exact Node.ops_fit reg h.1 (by omega) x hx
    · exact Node.ops_fit reg h.2 (by omega) x hx
  | .alt a b, k, h, hs, x, hx => by
    rw [Node.size] at hs
    simp only [Node.ops, List.mem_append, List.mem_singleton] at hx
    rcases hx with ((rfl | hx) | rfl) | hx
    · exact ⟨trivial, by constructor <;> omega⟩
    · exact Node.ops_fit reg h.1 (by omega) x hx
    · exact ⟨trivial, by constructor <;> omega⟩
    · exact Node.ops_fit reg h.2 (by omega) x hx
  | .skip greedy a, k, h, hs, x, hx => by
    rw [Node.size] at hs
    simp only [Node.ops, List.mem_append, List.mem_singleton] at hx
    rcases hx with rfl | hx
    · exact ⟨trivial, by constructor <;> omega⟩
    · exact Node.ops_fit (a := a) reg h (by omega) x hx
  | .guard a, k, h, hs, x, hx => by
    rw [Node.size] at hs
    simp only [Node.ops, List.mem_append, List.mem_singleton] at hx
    rcases hx with (rfl | hx) | rfl
    · exact ⟨trivial, trivial⟩
    · exact Node.ops_fit (a := a) reg h (by omega) x hx
    · exact ⟨trivial, trivial⟩
  | .star greedy a, k, h, hs, x, hx => by
    rw [Node.size] at hs
    simp only [Node.ops, List.mem_append, List.mem_singleton] at hx
    rcases hx with (rfl | hx) | rfl
    · exact ⟨trivial, by constructor <;> omega⟩
    · exact Node.ops_fit reg h.1 (by omega) x hx
    · exact ⟨trivial, by constructor <;> omega⟩
  | .plus greedy a, k, h, hs, x, hx => by
    rw [Node.size] at hs
    simp only [Node.ops, List.mem_append, List.mem_singleton] at hx
    rcases hx with hx | rfl
    · exact Node.ops_fit reg h.1 (by omega) x hx
    · exact ⟨trivial, by constructor <;> omega⟩
  | .times n a, k, h, hs, x, hx => by
    rw [Node.size] at hs
    have hn : n < 2 ^ 32 := lt_of_le_of_lt h.2.2 (by norm_num [shortIntMax])
    simp only [Node.ops, List.mem_append, List.mem_singleton] at hx
    rcases hx with (rfl | hx) | rfl
    · exact ⟨hn, trivial⟩
    · exact Node.ops_fit reg h.1 (by omega) x hx
    · exact ⟨trivial, by constructor <;> omega⟩
  | .counted checkAdv greedy max limit a, k, h, hs, x, hx => by
    rw [Node.size] at hs
    have hn : max < 2 ^ 32 := lt_of_le_of_lt h.2.2.1 (by norm_num [shortIntMax])
    have hl : limit < 2 ^ 32 := h.2.2.2.trans_lt hn
    simp only [Node.ops, List.mem_append, List.mem_singleton] at hx
    rcases hx with ((rfl | hx) | hx) | rfl
    · exact ⟨hn, trivial⟩
    · split_ifs at hx with hc
      · rw [List.mem_singleton] at hx
        rw [hx]
        exact ⟨trivial, trivial⟩
      · cases hx
    · exact Node.ops_fit reg h.1 (by omega) x hx
    · exact ⟨hl, by constructor <;> omega⟩
  | .look neg a, k, h, hs, x, hx => by
    rw [Node.size] at hs
    simp only [Node.ops, List.mem_append, List.mem_singleton] at hx
    rcases hx with (rfl | hx) | rfl
    · exact ⟨trivial, by constructor <;> omega⟩
    · exact Node.ops_fit (a := a) reg h (by omega) x hx
    · exact ⟨trivial, trivial⟩

/-! ### Open loops -/

/-- Before the instruction at `p` these loops are open, for all that comes behind. -/
def AtLoops (code : List ℕ) (p : ℕ) (loops : List ℕ) : Prop :=
  ∀ target, p ≤ target → target ≤ code.length →
    loopsAt code target = openLoops code target code.length p loops

theorem openLoops_fuel {target : ℕ} : ∀ {fuel fuel' pos : ℕ} {loops : List ℕ},
    target ≤ pos + fuel → target ≤ pos + fuel' →
    openLoops code target fuel pos loops = openLoops code target fuel' pos loops
  | 0, 0, _, _, _, _ => rfl
  | 0, fuel' + 1, pos, loops, h, _ => by
    rw [openLoops, openLoops, if_pos (by omega)]
  | fuel + 1, 0, pos, loops, _, h => by
    rw [openLoops, openLoops, if_pos (by omega)]
  | fuel + 1, fuel' + 1, pos, loops, h, h' => by
    have hpos := (Op.decode (code.drop pos)).size_pos
    rw [openLoops, openLoops]
    split_ifs
    · rfl
    · exact openLoops_fuel (by omega) (by omega)

theorem AtLoops.self (h : AtLoops code p loops) (hp : p ≤ code.length) :
    loopsAt code p = loops := by
  rw [h p le_rfl hp]
  cases code.length with
  | zero => rfl
  | succ fuel => rw [openLoops, if_pos le_rfl]

/-- Behind an instruction. -/
theorem AtLoops.next (h : AtLoops code p loops) (ho : Op.decode (code.drop p) = o) :
    AtLoops code (p + o.size) (if o.opens then p :: loops else loops.drop o.closes) := by
  intro target htarget hlen
  have hpos := o.size_pos
  obtain ⟨fuel, hfuel⟩ : ∃ fuel, code.length = fuel + 1 := ⟨code.length - 1, by omega⟩
  rw [h target (by omega) hlen, hfuel, openLoops, if_neg (by omega), ho]
  exact openLoops_fuel (by omega) (by omega)

theorem AtLoops.plain (h : AtLoops code p loops) (ho : Op.decode (code.drop p) = o)
    (hopens : o.opens = false) (hcloses : o.closes = 0) : AtLoops code (p + o.size) loops := by
  have := h.next ho
  rwa [hopens, hcloses] at this

theorem Op.Plain.no_loop (h : o.Plain cc) : o.opens = false ∧ o.closes = 0 ∧ o.registers = [] := by
  cases o with
  | setI32 | setCharPos | checkAdvance | loop | loopSplit => exact absurd h id
  | _ => exact ⟨rfl, rfl, rfl⟩

/-! ### Where the instructions of a node stand -/

section Layout

variable {a b : Node} {n max limit : ℕ} {greedy neg : Bool}

theorem listing_alt (h : Listing code p ((Node.alt a b).ops id k)) :
    Op.decode (code.drop p) = .split true (a.size + 5) ∧ Listing code (p + 5) (a.ops id k)
      ∧ Op.decode (code.drop (p + 5 + a.size)) = .goto b.size
      ∧ Listing code (p + 5 + a.size + 5) (b.ops id k) := by
  simp only [Node.ops, listing_append, listing_singleton, bytes_append, bytes_singleton,
    List.length_append, Op.length_encode, length_bytes_ops, ← Nat.add_assoc] at h
  exact ⟨h.1.1.1, h.1.1.2, h.1.2, h.2⟩

theorem listing_skip (h : Listing code p ((Node.skip greedy a).ops id k)) :
    Op.decode (code.drop p) = .split greedy a.size ∧ Listing code (p + 5) (a.ops id k) := by
  simp only [Node.ops, listing_append, listing_singleton, bytes_singleton, Op.length_encode] at h
  exact h

theorem listing_guard (h : Listing code p ((Node.guard a).ops id k)) :
    Op.decode (code.drop p) = .setCharPos k ∧ Listing code (p + 2) (a.ops id (k + 1))
      ∧ Op.decode (code.drop (p + 2 + a.size)) = .checkAdvance k := by
  simp only [Node.ops, listing_append, listing_singleton, bytes_append, bytes_singleton,
    List.length_append, Op.length_encode, length_bytes_ops, ← Nat.add_assoc] at h
  exact ⟨h.1.1, h.1.2, h.2⟩

theorem listing_star (h : Listing code p ((Node.star greedy a).ops id k)) :
    Op.decode (code.drop p) = .split greedy (a.size + 5) ∧ Listing code (p + 5) (a.ops id k)
      ∧ Op.decode (code.drop (p + 5 + a.size)) = .goto (-(5 + a.size + 5)) := by
  simp only [Node.ops, listing_append, listing_singleton, bytes_append, bytes_singleton,
    List.length_append, Op.length_encode, length_bytes_ops, ← Nat.add_assoc] at h
  exact ⟨h.1.1, h.1.2, h.2⟩

theorem listing_plus (h : Listing code p ((Node.plus greedy a).ops id k)) :
    Listing code p (a.ops id k)
      ∧ Op.decode (code.drop (p + a.size)) = .split (!greedy) (-(a.size + 5)) := by
  simp only [Node.ops, listing_append, listing_singleton, length_bytes_ops] at h
  exact h

theorem listing_times (h : Listing code p ((Node.times n a).ops id k)) :
    Op.decode (code.drop p) = .setI32 k n ∧ Listing code (p + 6) (a.ops id (k + 1))
      ∧ Op.decode (code.drop (p + 6 + a.size)) = .loop k (-(a.size + 6)) := by
  simp only [Node.ops, listing_append, listing_singleton, bytes_append, bytes_singleton,
    List.length_append, Op.length_encode, length_bytes_ops, ← Nat.add_assoc] at h
  exact ⟨h.1.1, h.1.2, h.2⟩

theorem listing_counted_false
    (h : Listing code p ((Node.counted false greedy max limit a).ops id k)) :
    Op.decode (code.drop p) = .setI32 k max ∧ Listing code (p + 6) (a.ops id (k + 1))
      ∧ Op.decode (code.drop (p + 6 + a.size))
        = .loopSplit false (!greedy) k limit (-(a.size + 10)) := by
  simp only [Node.ops, listing_append, listing_singleton, bytes_append, bytes_singleton,
    List.length_append, Op.length_encode, length_bytes_ops, ← Nat.add_assoc, Bool.false_eq_true,
    if_false, List.append_nil, Bool.toNat_false, Nat.cast_zero, mul_zero, zero_add] at h
  exact ⟨h.1.1, h.1.2, h.2⟩

theorem listing_counted_true
    (h : Listing code p ((Node.counted true greedy max limit a).ops id k)) :
    Op.decode (code.drop p) = .setI32 k max
      ∧ Op.decode (code.drop (p + 6)) = .setCharPos (k + 1)
      ∧ Listing code (p + 6 + 2) (a.ops id (k + 1 + 1))
      ∧ Op.decode (code.drop (p + 6 + 2 + a.size))
        = .loopSplit true (!greedy) k limit (-(2 + a.size + 10)) := by
  simp only [Node.ops, listing_append, listing_singleton, bytes_append, bytes_singleton,
    List.length_append, Op.length_encode, length_bytes_ops, ← Nat.add_assoc, if_true,
    Bool.toNat_true, Nat.cast_one, mul_one] at h
  exact ⟨h.1.1.1, h.1.1.2, h.1.2, h.2⟩

theorem listing_look (h : Listing code p ((Node.look neg a).ops id k)) :
    Op.decode (code.drop p) = .lookahead neg (a.size + 1) ∧ Listing code (p + 5) (a.ops id k)
      ∧ Op.decode (code.drop (p + 5 + a.size)) = .lookaheadMatch neg := by
  simp only [Node.ops, listing_append, listing_singleton, bytes_append, bytes_singleton,
    List.length_append, Op.length_encode, length_bytes_ops, ← Nat.add_assoc] at h
  exact ⟨h.1.1, h.1.2, h.2⟩

end Layout

/-! ### Open loops behind a node -/

/-- An instruction that opens a loop. -/
theorem AtLoops.opens (h : AtLoops code p loops) (ho : Op.decode (code.drop p) = o)
    (hopens : o.opens = true) : AtLoops code (p + o.size) (p :: loops) := by
  have := h.next ho
  rwa [hopens] at this

/-- An instruction that ends loops. -/
theorem AtLoops.closes {opened : List ℕ} (h : AtLoops code p (opened ++ loops))
    (ho : Op.decode (code.drop p) = o) (hopens : o.opens = false)
    (hcloses : o.closes = opened.length) : AtLoops code (p + o.size) loops := by
  have := h.next ho
  rwa [hopens, hcloses, if_neg Bool.false_ne_true, List.drop_left] at this

/-- Behind a node the same loops are open as before it. -/
theorem AtLoops.node : ∀ {a : Node} {p k : ℕ} {loops : List ℕ}, a.Ok cc →
    Listing code p (a.ops id k) → AtLoops code p loops → AtLoops code (p + a.size) loops
  | .nil, _, _, _, _, _, h => h
  | .op o, p, k, loops, ho, hl, h => by
    rw [Node.ops, listing_singleton] at hl
    obtain ⟨h1, h2, -⟩ := Op.Plain.no_loop ho
    exact h.plain hl h1 h2
  | .cat a b, p, k, loops, ho, hl, h => by
    rw [Node.ops, listing_append, length_bytes_ops] at hl
    have := (h.node ho.1 hl.1).node ho.2 hl.2
    rwa [Nat.add_assoc] at this
  | .alt a b, p, k, loops, ho, hl, h => by
    obtain ⟨h1, h2, h3, h4⟩ := listing_alt hl
    have ha : AtLoops code (p + 5 + a.size) loops := .node ho.1 h2 (h.plain h1 rfl rfl)
    have hb : AtLoops code (p + 5 + a.size + 5 + b.size) loops :=
      .node ho.2 h4 (ha.plain h3 rfl rfl)
    simpa only [Node.size, Nat.add_assoc] using hb
  | .skip greedy a, p, k, loops, ho, hl, h => by
    obtain ⟨h1, h2⟩ := listing_skip hl
    have ha : AtLoops code (p + 5 + a.size) loops := .node (a := a) ho h2 (h.plain h1 rfl rfl)
    simpa only [Node.size, Nat.add_assoc] using ha
  | .guard a, p, k, loops, ho, hl, h => by
    obtain ⟨h1, h2, h3⟩ := listing_guard hl
    have ha : AtLoops code (p + 2 + a.size) ([p] ++ loops) := .node (a := a) ho h2 (h.opens h1 rfl)
    have hend : AtLoops code (p + 2 + a.size + 2) loops := ha.closes h3 rfl rfl
    simpa only [Node.size, Nat.add_assoc] using hend
  | .star greedy a, p, k, loops, ho, hl, h => by
    obtain ⟨h1, h2, h3⟩ := listing_star hl
    have ha : AtLoops code (p + 5 + a.size) loops := .node ho.1 h2 (h.plain h1 rfl rfl)
    have hend : AtLoops code (p + 5 + a.size + 5) loops := ha.plain h3 rfl rfl
    simpa only [Node.size, Nat.add_assoc] using hend
  | .plus greedy a, p, k, loops, ho, hl, h => by
    obtain ⟨h1, h2⟩ := listing_plus hl
    have hend : AtLoops code (p + a.size + 5) loops := (h.node ho.1 h1).plain h2 rfl rfl
    simpa only [Node.size, Nat.add_assoc] using hend
  | .times n a, p, k, loops, ho, hl, h => by
    obtain ⟨h1, h2, h3⟩ := listing_times hl
    have ha : AtLoops code (p + 6 + a.size) ([p] ++ loops) := .node ho.1 h2 (h.opens h1 rfl)
    have hend : AtLoops code (p + 6 + a.size + 6) loops := ha.closes h3 rfl rfl
    simpa only [Node.size, Nat.add_assoc] using hend
  | .counted false greedy max limit a, p, k, loops, ho, hl, h => by
    obtain ⟨h1, h2, h3⟩ := listing_counted_false hl
    have ha : AtLoops code (p + 6 + a.size) ([p] ++ loops) := .node ho.1 h2 (h.opens h1 rfl)
    have hend : AtLoops code (p + 6 + a.size + 10) loops := ha.closes h3 rfl rfl
    simpa only [Node.size, Nat.add_assoc, Bool.toNat_false, Nat.mul_zero, Nat.zero_add] using hend
  | .counted true greedy max limit a, p, k, loops, ho, hl, h => by
    obtain ⟨h1, h2, h3, h4⟩ := listing_counted_true hl
    have ha : AtLoops code (p + 6 + 2 + a.size) ([p + 6, p] ++ loops) :=
      .node ho.1 h3 ((h.opens h1 rfl).opens h2 rfl)
    have hend : AtLoops code (p + 6 + 2 + a.size + 10) loops := ha.closes h4 rfl rfl
    simpa only [Node.size, Nat.add_assoc, Bool.toNat_true, Nat.mul_one] using hend
  | .look neg a, p, k, loops, ho, hl, h => by
    obtain ⟨h1, h2, h3⟩ := listing_look hl
    have ha : AtLoops code (p + 5 + a.size) loops := .node (a := a) ho h2 (h.plain h1 rfl rfl)
    have hend : AtLoops code (p + 5 + a.size + 1) loops := ha.plain h3 (by cases neg <;> rfl)
      (by cases neg <;> rfl)
    simpa only [Node.size, Nat.add_assoc] using hend

end Qjs.Regexp
