import Qjs.Proofs.AetherNumber

/-!
# What the JSON parser accepts

The parser succeeds on the texts of the strict grammar whose values stand in at most 256 containers,
and gives their trees, as long as its counters last: the lengths of strings are cut to 32 bits, the
counters of digits are `int`s, and the doubling of a capacity does not end from 2 ^ 31 entries on
(`jsonParseRawN_correct_iff`).
-/

namespace Qjs

namespace Aether

open JsonText

/-! ### Trees and values -/

mutual

/-- The value that a tree stands for. -/
def value : Tree → JsonValue
  | .null => .null
  | .bool b => .bool b
  | .num d => .number d.double
  | .str bs => .str bs bs.length
  | .arr vs => .arr (valueElements vs)
  | .obj ps => .obj (valueMembers ps)

def valueElements : List Tree → List JsonValue
  | [] => []
  | v :: vs => value v :: valueElements vs

def valueMembers : List (List ℕ × Tree) → List (List ℕ × ℕ × JsonValue)
  | [] => []
  | (k, v) :: ps => (k, k.length, value v) :: valueMembers ps

end

/-- The most entries that a capacity can be found for. -/
def maxEntries : ℕ := 2 ^ 31

mutual

/-- The counters of the parser last for the tree. -/
def Small : Tree → Prop
  | .null => True
  | .bool _ => True
  | .num d => NumberSmall d
  | .str bs => bs.length < 2 ^ 32
  | .arr vs => vs.length ≤ maxEntries ∧ SmallElements vs
  | .obj ps => ps.length ≤ maxEntries ∧ SmallMembers ps

def SmallElements : List Tree → Prop
  | [] => True
  | v :: vs => Small v ∧ SmallElements vs

def SmallMembers : List (List ℕ × Tree) → Prop
  | [] => True
  | (k, v) :: ps => k.length < 2 ^ 32 ∧ Small v ∧ SmallMembers ps

end

mutual

/-- The value that the parser gives of a tree, if any. -/
def coded : Tree → Option JsonValue
  | .null => some .null
  | .bool b => some (.bool b)
  | .num d => if NumberSmall d then some (.number d.double) else none
  | .str bs => some (.str bs (bs.length % 2 ^ 32))
  | .arr vs => if vs.length ≤ maxEntries then (codedElements vs).map .arr else none
  | .obj ps => if ps.length ≤ maxEntries then (codedMembers ps).map .obj else none

def codedElements : List Tree → Option (List JsonValue)
  | [] => some []
  | v :: vs => (coded v).bind fun u => (codedElements vs).map (u :: ·)

def codedMembers : List (List ℕ × Tree) → Option (List (List ℕ × ℕ × JsonValue))
  | [] => some []
  | (k, v) :: ps =>
    (coded v).bind fun u => (codedMembers ps).map ((k, k.length % 2 ^ 32, u) :: ·)

end

mutual

/-- The parser gives the value of the tree just when its counters last. -/
theorem coded_eq_iff : ∀ t : Tree, coded t = some (value t) ↔ Small t
  | .null => by simp [coded, value, Small]
  | .bool b => by simp [coded, value, Small]
  | .num d => by
    rw [coded, value, Small]
    split_ifs with h <;> simp [h]
  | .str bs => by
    simp only [coded, value, Small, Option.some.injEq, JsonValue.str.injEq, true_and]
    constructor
    · intro h
      rw [← h]
      exact Nat.mod_lt _ (by norm_num)
    · exact Nat.mod_eq_of_lt
  | .arr vs => by
    rw [coded, value, Small, ← codedElements_eq_iff vs]
    split_ifs with h <;> simp [h]
  | .obj ps => by
    rw [coded, value, Small, ← codedMembers_eq_iff ps]
    split_ifs with h <;> simp [h]

theorem codedElements_eq_iff :
    ∀ vs : List Tree, codedElements vs = some (valueElements vs) ↔ SmallElements vs
  | [] => by simp [codedElements, valueElements, SmallElements]
  | v :: vs => by
    rw [codedElements, valueElements, SmallElements, ← coded_eq_iff v, ← codedElements_eq_iff vs]
    simp only [Option.bind_eq_some_iff, Option.map_eq_some_iff, List.cons.injEq]
    constructor
    · rintro ⟨u, hu, us, hus, rfl, rfl⟩
      exact ⟨hu, hus⟩
    · rintro ⟨hu, hus⟩
      exact ⟨_, hu, _, hus, rfl, rfl⟩

theorem codedMembers_eq_iff : ∀ ps : List (List ℕ × Tree),
    codedMembers ps = some (valueMembers ps) ↔ SmallMembers ps
  | [] => by simp [codedMembers, valueMembers, SmallMembers]
  | (k, v) :: ps => by
    rw [codedMembers, valueMembers, SmallMembers, ← coded_eq_iff v, ← codedMembers_eq_iff ps]
    simp only [Option.bind_eq_some_iff, Option.map_eq_some_iff, List.cons.injEq, Prod.mk.injEq,
      true_and]
    constructor
    · rintro ⟨u, hu, us, hus, ⟨hk, rfl⟩, rfl⟩
      refine ⟨?_, hu, hus⟩
      rw [← hk]
      exact Nat.mod_lt _ (by norm_num)
    · rintro ⟨hk, hu, hus⟩
      exact ⟨_, hu, _, hus, ⟨Nat.mod_eq_of_lt hk, rfl⟩, rfl⟩

end

/-! ### Capacities -/

/-- A capacity is 0, or a power of two from 8 up to 2 ^ 31. -/
def IsCap (c : ℕ) : Prop := c = 0 ∨ ∃ j ≤ 28, c = 8 * 2 ^ j

theorem double_mod {j : ℕ} (hj : j ≤ 28) :
    8 * 2 ^ j * 2 % 2 ^ 32 = if j = 28 then 0 else 8 * 2 ^ (j + 1) := by
  split_ifs with h
  · subst h
    norm_num
  · have hle : 2 ^ (j + 1) ≤ 2 ^ 28 := Nat.pow_le_pow_right (by norm_num) (by omega)
    rw [mul_assoc, ← pow_succ]
    exact Nat.mod_eq_of_lt (by omega)

theorem growCap_some : ∀ (turns j needed : ℕ), j ≤ 28 → needed ≤ maxEntries → 29 ≤ turns + j →
    ∃ c, growCap turns (8 * 2 ^ j) needed = some c ∧ needed ≤ c ∧ IsCap c
  | 0, j, needed, hj, _, ht => absurd ht (by omega)
  | turns + 1, j, needed, hj, hn, ht => by
    rw [growCap]
    split_ifs with h
    · have hj' : j ≠ 28 := by
        rintro rfl
        unfold maxEntries at hn
        omega
      rw [double_mod hj, if_neg hj']
      exact growCap_some turns (j + 1) needed (by omega) hn (by omega)
    · exact ⟨_, rfl, by omega, .inr ⟨j, hj, rfl⟩⟩

/-- Above 2 ^ 31 entries the capacity goes to 0 and stays there, however long the loop runs. -/
theorem growCap_none : ∀ (turns : ℕ) {c needed : ℕ}, IsCap c → maxEntries < needed →
    growCap turns c needed = none
  | 0, _, _, _, _ => rfl
  | turns + 1, c, needed, hc, hn => by
    unfold maxEntries at hn
    rw [growCap]
    rcases hc with rfl | ⟨j, hj, rfl⟩
    · rw [if_pos (by omega)]
      exact growCap_none turns (.inl rfl) hn
    · have hle : 2 ^ j ≤ 2 ^ 28 := Nat.pow_le_pow_right (by norm_num) hj
      rw [if_pos (by omega), double_mod hj]
      split_ifs with h28
      · exact growCap_none turns (.inl rfl) hn
      · exact growCap_none turns (.inr ⟨j + 1, by omega, rfl⟩) hn

/-- The entries fit their capacity. -/
structure Sized {α : Type} (a : Entries α) : Prop where
  cap : IsCap a.capacity
  fits : a.items.length ≤ a.capacity

theorem sized_empty {α : Type} : Sized (.empty : Entries α) := ⟨.inl rfl, le_rfl⟩

section Push

variable {α : Type} {a : Entries α} (h : Sized a) (x : α)

include h

theorem reserve_ok (hlt : a.items.length < maxEntries) :
    ∃ c, reserve a.capacity ((a.items.length + 1) % 2 ^ 32) = .ok c ∧ IsCap c
      ∧ a.items.length + 1 ≤ c := by
  have hmod : (a.items.length + 1) % 2 ^ 32 = a.items.length + 1 :=
    Nat.mod_eq_of_lt (by unfold maxEntries at hlt; omega)
  rw [hmod, reserve]
  by_cases hfit : a.items.length + 1 ≤ a.capacity
  · rw [if_pos hfit]
    exact ⟨_, rfl, h.cap, hfit⟩
  · have hstart : ∃ j ≤ 28, (if a.capacity = 0 then 8 else a.capacity) = 8 * 2 ^ j := by
      rcases h.cap with h0 | ⟨j, hj, h0⟩
      · exact ⟨0, by omega, by rw [if_pos h0]; rfl⟩
      · refine ⟨j, hj, ?_⟩
        rw [if_neg (by rw [h0]; positivity), h0]
    obtain ⟨j, hj, hs⟩ := hstart
    obtain ⟨c, hg, hle, hc⟩ := growCap_some 33 j (a.items.length + 1) hj (by omega) (by omega)
    rw [if_neg hfit, hs, hg]
    exact ⟨c, rfl, hc, hle⟩

theorem push_ok (hlt : a.items.length < maxEntries) :
    ∃ b : Entries α, a.push reserve x = .ok b ∧ b.items = a.items ++ [x] ∧ Sized b := by
  obtain ⟨c, hr, hc, hle⟩ := reserve_ok h hlt
  refine ⟨⟨a.items ++ [x], c⟩, ?_, rfl, ⟨hc, by simpa using hle⟩⟩
  rw [Entries.push, hr, ok_bind]

omit x in
theorem sized_length : a.items.length ≤ maxEntries := by
  have hfits := h.fits
  unfold maxEntries
  rcases h.cap with h0 | ⟨j, hj, h0⟩
  · omega
  · have hle : 2 ^ j ≤ 2 ^ 28 := Nat.pow_le_pow_right (by norm_num) hj
    omega

theorem push_full (hfull : maxEntries ≤ a.items.length) :
    a.push reserve x = .error .endless := by
  have hcap : a.capacity ≤ maxEntries := by
    unfold maxEntries
    rcases h.cap with h0 | ⟨j, hj, h0⟩
    · omega
    · have hle : 2 ^ j ≤ 2 ^ 28 := Nat.pow_le_pow_right (by norm_num) hj
      omega
  have hfits := h.fits
  have hlen : a.items.length = maxEntries := by omega
  have hr : reserve a.capacity ((a.items.length + 1) % 2 ^ 32) = .error .endless := by
    have hcap' : a.capacity = maxEntries := by omega
    rw [hlen, hcap', reserve, if_neg (by decide), if_neg (by decide),
      growCap_none 33 (.inr ⟨28, le_rfl, by decide⟩) (by decide)]
  rw [Entries.push, hr]
  rfl

end Push

/-! ### Parts of a text -/

theorem numberText_suffix {i r : List ℕ} {d : Decimal} (h : NumberText i d r) : r <:+ i := by
  cases h with
  | @mk s f x r d => exact ⟨s ++ (d.int ++ (f ++ x)), by simp only [List.append_assoc]⟩

theorem denotes_suffix {n : Nonterminal} {i r : List ℕ} {t : Tree} (h : Denotes n i t r) :
    r <:+ i := by
  induction h with
  | null => exact ⟨[_, _, _, _], rfl⟩
  | true => exact ⟨[_, _, _, _], rfl⟩
  | false => exact ⟨[_, _, _, _, _], rfl⟩
  | number h => exact numberText_suffix h
  | string h =>
    exact (List.suffix_cons _ _).trans ((charsText_suffix h).trans (List.suffix_cons _ _))
  | emptyArray hw | emptyObject hw =>
    exact (List.suffix_cons _ _).trans ((spaces_suffix hw).trans (List.suffix_cons _ _))
  | array _ ih | object _ ih =>
    exact (List.suffix_cons _ _).trans (ih.trans (List.suffix_cons _ _))
  | element hw _ hw' ih => exact (spaces_suffix hw').trans (ih.trans (spaces_suffix hw))
  | elements hw _ hw' _ ihv ih =>
    exact ih.trans ((List.suffix_cons _ _).trans
      ((spaces_suffix hw').trans (ihv.trans (spaces_suffix hw))))
  | member hw hs hc hw' _ hw'' ih =>
    exact (spaces_suffix hw'').trans (ih.trans ((spaces_suffix hw').trans
      ((List.suffix_cons _ _).trans ((spaces_suffix hc).trans ((List.suffix_cons _ _).trans
      ((charsText_suffix hs).trans ((List.suffix_cons _ _).trans (spaces_suffix hw))))))))
  | members hw hs hc hw' _ hw'' _ ihv ih =>
    exact ih.trans ((List.suffix_cons _ _).trans ((spaces_suffix hw'').trans (ihv.trans
      ((spaces_suffix hw').trans ((List.suffix_cons _ _).trans ((spaces_suffix hc).trans
      ((List.suffix_cons _ _).trans ((charsText_suffix hs).trans
      ((List.suffix_cons _ _).trans (spaces_suffix hw))))))))))

/-- The first byte of a value. -/
theorem denotes_start {i r : List ℕ} {t : Tree} (h : Denotes .value i t r) :
    ¬ isWhitespace (peek i) = true ∧ peek i ≠ 0x5d ∧ peek i ≠ 0x7d := by
  have hsp : ∀ c, ¬ (c = 0x20 ∨ c = 0x09 ∨ c = 0x0a ∨ c = 0x0d) → ¬ isWhitespace c = true := by
    intro c hc h
    exact hc (isWhitespace_iff.1 h)
  cases h with
  | number h =>
    have hpeek := numberText_start h
    unfold IsDigit at hpeek
    exact ⟨hsp _ (by omega), by omega, by omega⟩
  | _ => exact ⟨by simp [peek, isWhitespace], by simp [peek], by simp [peek]⟩

/-! ### Soundness -/

section Sound

variable {sc : Scanner} {levels : ℕ}

/-- What is parsed with so many levels left is a value of the grammar. -/
def SoundAt (sc : Scanner) (levels : ℕ) : Prop :=
  ∀ p v r, Bytes p → parseValueDepth sc levels p = .ok (v, r) →
    ∃ t, Denotes .value (skipWhitespace p) t r ∧ t.depth < levels

theorem bytes_skipWhitespace {p : List ℕ} (hp : Bytes p) : Bytes (skipWhitespace p) :=
  hp.suffix (List.dropWhile_suffix _)

theorem skipWhitespace_idem (p : List ℕ) : skipWhitespace (skipWhitespace p) = skipWhitespace p := by
  unfold skipWhitespace
  exact List.dropWhile_idempotent _ p

theorem Bytes.tail' {p : List ℕ} (hp : Bytes p) : Bytes p.tail := hp.suffix (List.tail_suffix p)

/-- Up to a byte that is seen after white space. -/
theorem spaces_to {p : List ℕ} {c : ℕ} (h : peek (skipWhitespace p) = c) (hc : c ≠ 0) :
    Spaces rfc8259 p (c :: (skipWhitespace p).tail) := by
  rw [← peek_eq_cons h hc]
  exact spaces_skipWhitespace p

theorem arrayLoop_sound (ih : SoundAt sc levels) : ∀ {fuel : ℕ} {arr : Entries JsonValue}
    {p r : List ℕ} {v : JsonValue}, Bytes p →
    arrayLoop (parseValueDepth sc levels) fuel arr p = .ok (v, r) →
    ∃ vs, Denotes .elements p (.arr vs) (0x5d :: r) ∧ depthElements vs ≤ levels
  | 0, _, _, _, _, _, h => by cases h
  | fuel + 1, arr, p, r, v, hp, h => by
    rw [arrayLoop] at h
    obtain ⟨⟨elem, k⟩, hv, h⟩ := bind_eq_ok.1 h
    obtain ⟨arr', -, h⟩ := bind_eq_ok.1 h
    obtain ⟨t, ht, hdepth⟩ := ih _ _ _ (bytes_skipWhitespace hp) hv
    rw [skipWhitespace_idem] at ht
    have hk : Bytes k := (bytes_skipWhitespace hp).suffix (denotes_suffix ht)
    simp only at h
    split_ifs at h with h1 h2
    · obtain ⟨vs, hvs, hle⟩ := arrayLoop_sound ih (bytes_skipWhitespace hk).tail' h
      refine ⟨t :: vs, .elements (spaces_skipWhitespace p) ht (spaces_to h1 (by norm_num)) hvs, ?_⟩
      rw [depthElements]
      omega
    · cases h
      refine ⟨[t], .element (spaces_skipWhitespace p) ht (spaces_to h2 (by norm_num)), ?_⟩
      simp only [depthElements]
      omega

theorem objectLoop_sound (ih : SoundAt sc levels) : ∀ {fuel : ℕ}
    {obj : Entries (List ℕ × ℕ × JsonValue)} {p r : List ℕ} {v : JsonValue}, Bytes p →
    objectLoop (parseValueDepth sc levels) sc fuel obj p = .ok (v, r) →
    ∃ ps, Denotes .members p (.obj ps) (0x7d :: r) ∧ depthMembers ps ≤ levels
  | 0, _, _, _, _, _, h => by cases h
  | fuel + 1, obj, p, r, v, hp, h => by
    rw [objectLoop] at h
    simp only at h
    split_ifs at h with hq
    obtain ⟨⟨⟨key, keyLen⟩, k⟩, hkey, h⟩ := bind_eq_ok.1 h
    obtain ⟨j, hj, hs⟩ := parseStringRaw_sound (bytes_skipWhitespace hp) hkey
    have hw := spaces_skipWhitespace p
    rw [hj] at hw
    have hk : Bytes k := by
      have hjb := bytes_skipWhitespace hp
      rw [hj] at hjb
      exact (hjb.tail.suffix (charsText_suffix hs)).tail
    simp only at h
    split_ifs at h with hcol
    rw [not_not] at hcol
    obtain ⟨⟨val, o⟩, hv, h⟩ := bind_eq_ok.1 h
    obtain ⟨obj', -, h⟩ := bind_eq_ok.1 h
    have hm : Bytes (skipWhitespace (skipWhitespace k).tail) :=
      bytes_skipWhitespace (bytes_skipWhitespace hk).tail'
    obtain ⟨t, ht, hdepth⟩ := ih _ _ _ hm hv
    rw [skipWhitespace_idem] at ht
    have ho : Bytes o := hm.suffix (denotes_suffix ht)
    have hcolon := spaces_to hcol (by norm_num)
    simp only at h
    split_ifs at h with h1 h2
    · obtain ⟨ps, hps, hle⟩ := objectLoop_sound ih (bytes_skipWhitespace ho).tail' h
      refine ⟨(key, t) :: ps, .members hw hs hcolon (spaces_skipWhitespace _) ht
        (spaces_to h1 (by norm_num)) hps, ?_⟩
      rw [depthMembers]
      omega
    · cases h
      refine ⟨[(key, t)], .member hw hs hcolon (spaces_skipWhitespace _) ht
        (spaces_to h2 (by norm_num)), ?_⟩
      simp only [depthMembers]
      omega

theorem isPrefixOf_eq {w p : List ℕ} (h : w.isPrefixOf p = true) : p = w ++ p.drop w.length := by
  rw [List.isPrefixOf_iff_prefix] at h
  obtain ⟨t, rfl⟩ := h
  rw [List.drop_left]

theorem denotes_space_left {i p r : List ℕ} {t : Tree} {n : Nonterminal} (hn : n ≠ .value)
    (hp : Spaces rfc8259 p i) (h : Denotes n i t r) : Denotes n p t r := by
  cases h with
  | element hw hv hw' => exact .element (hp.trans hw) hv hw'
  | elements hw hv hw' h => exact .elements (hp.trans hw) hv hw' h
  | member hw hs hc hw' hv hw'' => exact .member (hp.trans hw) hs hc hw' hv hw''
  | members hw hs hc hw' hv hw'' h => exact .members (hp.trans hw) hs hc hw' hv hw'' h
  | _ => exact absurd rfl hn

theorem parseArray_cons (parseValue : List ℕ → Except Failure (JsonValue × List ℕ)) (c : ℕ)
    (p : List ℕ) : parseArray parseValue (c :: p) =
      if peek (skipWhitespace p) = 0x5d then .ok (.arr [], (skipWhitespace p).tail)
      else arrayLoop parseValue ((skipWhitespace p).length + 1) .empty (skipWhitespace p) := rfl

theorem parseObject_cons (parseValue : List ℕ → Except Failure (JsonValue × List ℕ)) (c : ℕ)
    (p : List ℕ) : parseObject parseValue sc (c :: p) =
      if peek (skipWhitespace p) = 0x7d then .ok (.obj [], (skipWhitespace p).tail)
      else objectLoop parseValue sc ((skipWhitespace p).length + 1) .empty (skipWhitespace p) := rfl

theorem parseArray_sound (ih : SoundAt sc levels) {p r : List ℕ} {v : JsonValue}
    (hp : Bytes p) (h : parseArray (parseValueDepth sc levels) (0x5b :: p) = .ok (v, r)) :
    ∃ t, Denotes .value (0x5b :: p) t r ∧ t.depth < levels + 1 := by
  rw [parseArray_cons] at h
  split_ifs at h with hend
  · cases h
    exact ⟨.arr [], .emptyArray (spaces_to hend (by norm_num)), Nat.succ_pos _⟩
  · obtain ⟨vs, hvs, hle⟩ := arrayLoop_sound ih (bytes_skipWhitespace hp) h
    refine ⟨.arr vs, .array (denotes_space_left (by simp) (spaces_skipWhitespace p) hvs), ?_⟩
    rw [Tree.depth]
    omega

theorem parseObject_sound (ih : SoundAt sc levels) {p r : List ℕ} {v : JsonValue}
    (hp : Bytes p) (h : parseObject (parseValueDepth sc levels) sc (0x7b :: p) = .ok (v, r)) :
    ∃ t, Denotes .value (0x7b :: p) t r ∧ t.depth < levels + 1 := by
  rw [parseObject_cons] at h
  split_ifs at h with hend
  · cases h
    exact ⟨.obj [], .emptyObject (spaces_to hend (by norm_num)), Nat.succ_pos _⟩
  · obtain ⟨ps, hps, hle⟩ := objectLoop_sound ih (bytes_skipWhitespace hp) h
    refine ⟨.obj ps, .object (denotes_space_left (by simp) (spaces_skipWhitespace p) hps), ?_⟩
    rw [Tree.depth]
    omega

end Sound

theorem soundAt (sc : Scanner) : ∀ levels : ℕ, SoundAt sc levels
  | 0 => by
    intro p v r _ h
    cases h
  | levels + 1 => by
    intro p v r hp h
    rw [parseValueDepth] at h
    have hq := bytes_skipWhitespace hp
    generalize skipWhitespace p = q at h hq ⊢
    cases q with
    | nil => cases h
    | cons c q =>
      simp only at h
      split_ifs at h with h1 h2 h3 h4 h5 h6
      · unfold parseNullLit at h
        split_ifs at h with hpre
        cases h
        rw [isPrefixOf_eq hpre]
        exact ⟨.null, .null, Nat.succ_pos _⟩
      · unfold parseBoolLit at h
        split_ifs at h with hpre hpre'
        · cases h
          rw [isPrefixOf_eq hpre]
          exact ⟨.bool true, .true, Nat.succ_pos _⟩
        · cases h
          rw [isPrefixOf_eq hpre']
          exact ⟨.bool false, .false, Nat.succ_pos _⟩
      · obtain ⟨⟨⟨data, len⟩, k⟩, hs, h⟩ := bind_eq_ok.1 h
        cases h
        obtain ⟨i, hi, hc⟩ := parseStringRaw_sound hq hs
        rw [hi]
        exact ⟨.str data, .string hc, Nat.succ_pos _⟩
      · subst h4
        exact parseArray_sound (soundAt sc levels) hq.tail h
      · subst h5
        exact parseObject_sound (soundAt sc levels) hq.tail h
      · obtain ⟨d, hd⟩ := parseNumber_sound h
        exact ⟨.num d, .number hd, Nat.succ_pos _⟩

/-! ### Completeness -/

theorem toOption_bind {α β : Type} (x : Except Failure α) (f : α → Except Failure β) :
    (x >>= f).toOption = x.toOption.bind fun a => (f a).toOption := by
  cases x <;> rfl

theorem toOption_eq_some {α : Type} {x : Except Failure α} {a : α} :
    x.toOption = some a ↔ x = .ok a := by
  cases x <;> simp [Except.toOption]

/-- After a value there is white space, a comma, a closing bracket or brace, or nothing. -/
theorem stop_of_spaces {k t : List ℕ} (h : Spaces rfc8259 k t)
    (ht : peek t = 0 ∨ peek t = 0x2c ∨ peek t = 0x5d ∨ peek t = 0x7d) : Stop k := by
  have hstop : ∀ c, c = 0 ∨ c = 0x2c ∨ c = 0x5d ∨ c = 0x7d ∨ rfc8259.space c →
      ¬ isDigit c = true ∧ c ≠ 0x2e ∧ c ≠ 0x65 ∧ c ≠ 0x45 := by
    intro c hc
    rw [isDigit_iff]
    unfold IsDigit
    simp only [rfc8259] at hc
    omega
  cases h with
  | nil =>
    have := hstop (peek k) (by tauto)
    exact this
  | @cons c i r hc _ => exact hstop c (by tauto)

theorem not_isWhitespace_peek {t : List ℕ}
    (ht : peek t = 0 ∨ peek t = 0x22 ∨ peek t = 0x2c ∨ peek t = 0x3a ∨ peek t = 0x5d
      ∨ peek t = 0x7d) : ¬ isWhitespace (peek t) = true := by
  rw [isWhitespace_iff]
  simp only [rfc8259]
  omega

/-- The array of elements after `us`. -/
def arrFrom (us : List JsonValue) (vs : List Tree) : Option JsonValue :=
  if us.length + vs.length ≤ maxEntries then (codedElements vs).map fun ws => .arr (us ++ ws)
  else none

def objFrom (us : List (List ℕ × ℕ × JsonValue)) (ps : List (List ℕ × Tree)) :
    Option JsonValue :=
  if us.length + ps.length ≤ maxEntries then (codedMembers ps).map fun ws => .obj (us ++ ws)
  else none

theorem arrFrom_nil (vs : List Tree) : arrFrom [] vs = coded (.arr vs) := by
  rw [arrFrom, coded, List.length_nil, Nat.zero_add]
  rfl

theorem objFrom_nil (ps : List (List ℕ × Tree)) : objFrom [] ps = coded (.obj ps) := by
  rw [objFrom, coded, List.length_nil, Nat.zero_add]
  rfl

theorem arrFrom_cons (us : List JsonValue) (v : Tree) (vs : List Tree) :
    arrFrom us (v :: vs) = (coded v).bind fun u => arrFrom (us ++ [u]) vs := by
  cases hv : coded v with
  | none => simp [arrFrom, codedElements, hv]
  | some u =>
    simp only [arrFrom, codedElements, hv, Option.bind_some, List.length_append, List.length_cons,
      List.length_nil, Nat.zero_add, Nat.add_assoc, Nat.add_comm 1, Option.map_map]
    split_ifs
    · congr 1
      funext ws
      simp
    · rfl

theorem objFrom_cons (us : List (List ℕ × ℕ × JsonValue)) (k : List ℕ) (v : Tree)
    (ps : List (List ℕ × Tree)) : objFrom us ((k, v) :: ps)
      = (coded v).bind fun u => objFrom (us ++ [(k, k.length % 2 ^ 32, u)]) ps := by
  cases hv : coded v with
  | none => simp [objFrom, codedMembers, hv]
  | some u =>
    simp only [objFrom, codedMembers, hv, Option.bind_some, List.length_append, List.length_cons,
      List.length_nil, Nat.zero_add, Nat.add_assoc, Nat.add_comm 1, Option.map_map]
    split_ifs
    · congr 1
      funext ws
      simp
    · rfl

theorem arrFrom_full {us : List JsonValue} (h : maxEntries < us.length) (vs : List Tree) :
    arrFrom us vs = none := if_neg (by omega)

theorem objFrom_full {us : List (List ℕ × ℕ × JsonValue)} (h : maxEntries < us.length)
    (ps : List (List ℕ × Tree)) : objFrom us ps = none := if_neg (by omega)

section Complete

variable (sc : Scanner)

/-- What it is for the parser to take a part of a text. -/
def Taken : Nonterminal → List ℕ → Tree → List ℕ → Prop
  | .value, i, t, r => Bytes i → Stop r → ∀ levels, t.depth < levels → ∀ p, skipWhitespace p = i →
      (parseValueDepth sc levels p).toOption = (coded t).map (·, r)
  | .elements, i, t, r => Bytes i → peek r = 0x5d → ∀ vs, t = .arr vs → ∀ levels,
      depthElements vs ≤ levels → ∀ fuel, (skipWhitespace i).length < fuel → ∀ arr, Sized arr →
      ∀ p, skipWhitespace p = skipWhitespace i →
      (arrayLoop (parseValueDepth sc levels) fuel arr p).toOption
        = (arrFrom arr.items vs).map (·, r.tail)
  | .members, i, t, r => Bytes i → peek r = 0x7d → ∀ ps, t = .obj ps → ∀ levels,
      depthMembers ps ≤ levels → ∀ fuel, (skipWhitespace i).length < fuel → ∀ obj, Sized obj →
      ∀ p, skipWhitespace p = skipWhitespace i →
      (objectLoop (parseValueDepth sc levels) sc fuel obj p).toOption
        = (objFrom obj.items ps).map (·, r.tail)

variable {sc} {i r : List ℕ} {levels : ℕ}

/-- One turn of the loop over the elements; `vs` are the elements after it. -/
theorem arrayLoop_turn {j k t q : List ℕ} {v : Tree} {vs : List Tree} {fuel : ℕ}
    {arr : Entries JsonValue} (hs : Sized arr) {p : List ℕ} (hp : skipWhitespace p = j)
    (hv : (parseValueDepth sc levels j).toOption = (coded v).map (·, k))
    (hk : skipWhitespace k = t)
    (hrest : ∀ b : Entries JsonValue, Sized b →
      (if peek t = 0x2c then arrayLoop (parseValueDepth sc levels) fuel b t.tail
        else if peek t = 0x5d then .ok (.arr b.items, t.tail)
        else .error (.error "expected ',' or ']' in array" [])).toOption
          = (arrFrom b.items vs).map (·, q)) :
    (arrayLoop (parseValueDepth sc levels) (fuel + 1) arr p).toOption
      = (arrFrom arr.items (v :: vs)).map (·, q) := by
  rw [arrayLoop, hp, arrFrom_cons]
  cases hc : coded v with
  | none =>
    rw [hc, Option.map_none] at hv
    rw [toOption_bind, hv]
    rfl
  | some u =>
    rw [hc, Option.map_some, toOption_eq_some] at hv
    rw [hv, ok_bind, Option.bind_some]
    simp only [arrReserve]
    by_cases hlt : arr.items.length < maxEntries
    · obtain ⟨b, hb, hitems, hbs⟩ := push_ok hs u hlt
      rw [hb, ok_bind, hk, hrest b hbs, hitems]
    · rw [push_full hs u (by omega), arrFrom_full]
      · rfl
      · rw [List.length_append, List.length_singleton]
        omega

theorem arrFrom_end {b : Entries JsonValue} (h : Sized b) :
    arrFrom b.items [] = some (.arr b.items) := by
  rw [arrFrom, if_pos (by simpa using sized_length h)]
  simp [codedElements]

theorem objFrom_end {b : Entries (List ℕ × ℕ × JsonValue)} (h : Sized b) :
    objFrom b.items [] = some (.obj b.items) := by
  rw [objFrom, if_pos (by simpa using sized_length h)]
  simp [codedMembers]

/-- A value of a list of them, with the space around it. -/
theorem taken_value {j k t : List ℕ} {v : Tree} (hi : Bytes i) (hw : Spaces rfc8259 i j)
    (hv : Denotes .value j v k) (ihv : Taken sc .value j v k) (hw' : Spaces rfc8259 k t)
    (ht : peek t = 0x2c ∨ peek t = 0x5d ∨ peek t = 0x7d) (hlev : v.depth + 1 ≤ levels) :
    skipWhitespace i = j ∧ skipWhitespace k = t
      ∧ (parseValueDepth sc levels j).toOption = (coded v).map (·, k) := by
  have hstart := (denotes_start hv).1
  refine ⟨skipWhitespace_of_spaces hw hstart,
    skipWhitespace_of_spaces hw' (not_isWhitespace_peek (by omega)), ?_⟩
  exact ihv (hi.suffix (spaces_suffix hw)) (stop_of_spaces hw' (by omega)) levels (by omega) j
    (skipWhitespace_of_spaces (.nil j) hstart)

theorem taken_element {j k : List ℕ} {v : Tree} (hw : Spaces rfc8259 i j)
    (hv : Denotes .value j v k) (ihv : Taken sc .value j v k) (hw' : Spaces rfc8259 k r) :
    Taken sc .elements i (.arr [v]) r := by
  intro hi hr vs hvs levels hlev fuel hf arr hs p hp
  cases hvs
  obtain ⟨fuel, rfl⟩ : ∃ k, fuel = k + 1 := ⟨fuel - 1, by omega⟩
  rw [depthElements, depthElements] at hlev
  obtain ⟨hj, hk, hval⟩ := @taken_value sc _ _ _ _ _ _ hi hw hv ihv hw' (.inr (.inl hr))
    (show v.depth + 1 ≤ levels by omega)
  refine arrayLoop_turn hs (hp.trans hj) hval hk ?_
  intro b hb
  rw [if_neg (by omega), if_pos hr, arrFrom_end hb]
  rfl

theorem taken_elements {j k m : List ℕ} {v : Tree} {vs : List Tree} (hw : Spaces rfc8259 i j)
    (hv : Denotes .value j v k) (ihv : Taken sc .value j v k)
    (hw' : Spaces rfc8259 k (0x2c :: m)) (ih : Taken sc .elements m (.arr vs) r) :
    Taken sc .elements i (.arr (v :: vs)) r := by
  intro hi hr vs' hvs levels hlev fuel hf arr hs p hp
  cases hvs
  obtain ⟨fuel, rfl⟩ : ∃ k, fuel = k + 1 := ⟨fuel - 1, by omega⟩
  rw [depthElements] at hlev
  obtain ⟨hj, hk, hval⟩ := @taken_value sc _ _ _ _ _ _ hi hw hv ihv hw' (.inl rfl)
    (show v.depth + 1 ≤ levels by omega)
  have hsuf : m <:+ j :=
    (List.suffix_cons _ _).trans ((spaces_suffix hw').trans (denotes_suffix hv))
  have hlen : (skipWhitespace m).length < fuel := by
    have h1 : (skipWhitespace m).length ≤ m.length := (List.dropWhile_suffix _).length_le
    have h2 := (spaces_suffix hw').length_le
    have h3 := (denotes_suffix hv).length_le
    rw [List.length_cons] at h2
    rw [hj] at hf
    omega
  refine arrayLoop_turn hs (hp.trans hj) hval hk ?_
  intro b hb
  rw [if_pos (by rfl)]
  exact ih (hi.suffix (hsuf.trans (spaces_suffix hw))) hr vs rfl levels (by omega) fuel hlen b hb
    m rfl

/-- One turn of the loop over the members; `ps` are the members after it. -/
theorem objectLoop_turn {j k m n o t q key : List ℕ} {v : Tree} {ps : List (List ℕ × Tree)}
    {fuel : ℕ} {obj : Entries (List ℕ × ℕ × JsonValue)} (hs : Sized obj) {p : List ℕ}
    (hp : skipWhitespace p = 0x22 :: j) (hj : Bytes j) (hkey : CharsText j key (0x22 :: k))
    (hc : skipWhitespace k = 0x3a :: m) (hn : skipWhitespace m = n)
    (hv : (parseValueDepth sc levels n).toOption = (coded v).map (·, o))
    (ho : skipWhitespace o = t)
    (hrest : ∀ b : Entries (List ℕ × ℕ × JsonValue), Sized b →
      (if peek t = 0x2c then objectLoop (parseValueDepth sc levels) sc fuel b t.tail
        else if peek t = 0x7d then .ok (.obj b.items, t.tail)
        else .error (.error "expected ',' or '\x7d' in object" [])).toOption
          = (objFrom b.items ps).map (·, q)) :
    (objectLoop (parseValueDepth sc levels) sc (fuel + 1) obj p).toOption
      = (objFrom obj.items ((key, v) :: ps)).map (·, q) := by
  have hkey' := parseStringRaw_complete sc hj hkey
  have hquote : ¬ peek (0x22 :: j) ≠ 0x22 := by simp [peek]
  have hcolon : ¬ peek (0x3a :: m) ≠ 0x3a := by simp [peek]
  rw [objectLoop, objFrom_cons]
  simp only [hp, if_neg hquote, hkey', ok_bind, hc, if_neg hcolon, List.tail_cons, hn]
  cases hcv : coded v with
  | none =>
    rw [hcv, Option.map_none] at hv
    rw [toOption_bind, hv]
    rfl
  | some u =>
    rw [hcv, Option.map_some, toOption_eq_some] at hv
    rw [hv, ok_bind, Option.bind_some]
    simp only [objReserve]
    by_cases hlt : obj.items.length < maxEntries
    · obtain ⟨b, hb, hitems, hbs⟩ := push_ok hs (key, key.length % 2 ^ 32, u) hlt
      rw [hb, ok_bind, ho, hrest b hbs, hitems]
    · rw [push_full hs _ (by omega), objFrom_full]
      · rfl
      · rw [List.length_append, List.length_singleton]
        omega

theorem taken_member {j k m n o key : List ℕ} {v : Tree} (hw : Spaces rfc8259 i (0x22 :: j))
    (hs : CharsText j key (0x22 :: k)) (hc : Spaces rfc8259 k (0x3a :: m))
    (hw' : Spaces rfc8259 m n) (hv : Denotes .value n v o) (ihv : Taken sc .value n v o)
    (hw'' : Spaces rfc8259 o r) : Taken sc .members i (.obj [(key, v)]) r := by
  intro hi hr ps hps levels hlev fuel hf obj hsz p hp
  cases hps
  obtain ⟨fuel, rfl⟩ : ∃ k, fuel = k + 1 := ⟨fuel - 1, by omega⟩
  rw [depthMembers, depthMembers] at hlev
  have hj : Bytes j := (hi.suffix (spaces_suffix hw)).tail
  have hk : Bytes k := (hj.suffix (charsText_suffix hs)).tail
  have hm : Bytes m := (hk.suffix (spaces_suffix hc)).tail
  obtain ⟨hn, ho, hval⟩ := @taken_value sc _ _ _ _ _ _ hm hw' hv ihv hw'' (.inr (.inr hr))
    (show v.depth + 1 ≤ levels by omega)
  have hi' := skipWhitespace_of_spaces hw (not_isWhitespace_peek (by simp [peek]))
  have hk' := skipWhitespace_of_spaces hc (not_isWhitespace_peek (by simp [peek]))
  refine objectLoop_turn hsz (hp.trans hi') hj hs hk' hn hval ho ?_
  intro b hb
  rw [if_neg (by omega), if_pos hr, objFrom_end hb]
  rfl

theorem taken_members {j k m n o q key : List ℕ} {v : Tree} {ps : List (List ℕ × Tree)}
    (hw : Spaces rfc8259 i (0x22 :: j)) (hs : CharsText j key (0x22 :: k))
    (hc : Spaces rfc8259 k (0x3a :: m)) (hw' : Spaces rfc8259 m n) (hv : Denotes .value n v o)
    (ihv : Taken sc .value n v o) (hw'' : Spaces rfc8259 o (0x2c :: q))
    (ih : Taken sc .members q (.obj ps) r) : Taken sc .members i (.obj ((key, v) :: ps)) r := by
  intro hi hr ps' hps levels hlev fuel hf obj hsz p hp
  cases hps
  obtain ⟨fuel, rfl⟩ : ∃ k, fuel = k + 1 := ⟨fuel - 1, by omega⟩
  rw [depthMembers] at hlev
  have hj : Bytes j := (hi.suffix (spaces_suffix hw)).tail
  have hk : Bytes k := (hj.suffix (charsText_suffix hs)).tail
  have hm : Bytes m := (hk.suffix (spaces_suffix hc)).tail
  obtain ⟨hn, ho, hval⟩ := @taken_value sc _ _ _ _ _ _ hm hw' hv ihv hw'' (.inl rfl)
    (show v.depth + 1 ≤ levels by omega)
  have hi' := skipWhitespace_of_spaces hw (not_isWhitespace_peek (by simp [peek]))
  have hk' := skipWhitespace_of_spaces hc (not_isWhitespace_peek (by simp [peek]))
  have hq : Bytes q :=
    (((hm.suffix (spaces_suffix hw')).suffix (denotes_suffix hv)).suffix
      (spaces_suffix hw'')).tail
  have hlen : (skipWhitespace q).length < fuel := by
    have h1 : (skipWhitespace q).length ≤ q.length := (List.dropWhile_suffix _).length_le
    have h2 := (spaces_suffix hw'').length_le
    have h3 := (denotes_suffix hv).length_le
    have h4 := (spaces_suffix hw').length_le
    have h5 := (spaces_suffix hc).length_le
    have h6 := (charsText_suffix hs).length_le
    simp only [List.length_cons] at h2 h5 h6
    rw [hi', List.length_cons] at hf
    omega
  refine objectLoop_turn hsz (hp.trans hi') hj hs hk' hn hval ho ?_
  intro b hb
  rw [if_pos (by rfl)]
  exact ih hq hr ps rfl levels (by omega) fuel hlen b hb q rfl

theorem taken_null : Taken sc .value (0x6e :: 0x75 :: 0x6c :: 0x6c :: r) .null r := by
  intro _ _ levels hlev p hp
  obtain ⟨levels, rfl⟩ : ∃ k, levels = k + 1 := ⟨levels - 1, by omega⟩
  rw [parseValueDepth, hp]
  rfl

theorem taken_true : Taken sc .value (0x74 :: 0x72 :: 0x75 :: 0x65 :: r) (.bool true) r := by
  intro _ _ levels hlev p hp
  obtain ⟨levels, rfl⟩ : ∃ k, levels = k + 1 := ⟨levels - 1, by omega⟩
  rw [parseValueDepth, hp]
  rfl

theorem taken_false :
    Taken sc .value (0x66 :: 0x61 :: 0x6c :: 0x73 :: 0x65 :: r) (.bool false) r := by
  intro _ _ levels hlev p hp
  obtain ⟨levels, rfl⟩ : ∃ k, levels = k + 1 := ⟨levels - 1, by omega⟩
  rw [parseValueDepth, hp]
  rfl

theorem taken_number {d : Decimal} (h : NumberText i d r) : Taken sc .value i (.num d) r := by
  intro _ hr levels hlev p hp
  obtain ⟨levels, rfl⟩ : ∃ k, levels = k + 1 := ⟨levels - 1, by omega⟩
  have hstart := numberText_start h
  have hnum : isNumStart (peek i) = true := by
    rw [isNumStart, Bool.or_eq_true, beq_iff_eq, isDigit_iff]
    exact hstart
  have hi : i = peek i :: i.tail :=
    peek_eq_cons rfl (by unfold IsDigit at hstart; omega)
  have hparse := parseNumber_complete h hr
  unfold IsDigit at hstart
  generalize peek i = c at hstart hnum hi
  generalize i.tail = q at hi
  subst hi
  rw [parseValueDepth, hp]
  simp only
  rw [if_neg (by omega), if_neg (by omega), if_neg (by omega), if_neg (by omega),
    if_neg (by omega), if_pos hnum, hparse, coded]
  split_ifs <;> rfl

theorem taken_string {bs : List ℕ} (h : CharsText i bs (0x22 :: r)) :
    Taken sc .value (0x22 :: i) (.str bs) r := by
  intro hi _ levels hlev p hp
  obtain ⟨levels, rfl⟩ : ∃ k, levels = k + 1 := ⟨levels - 1, by omega⟩
  have hs : parseString sc (0x22 :: i) = .ok (.str bs (bs.length % 2 ^ 32), r) := by
    rw [parseString, parseStringRaw_complete sc hi.tail h]
    rfl
  rw [parseValueDepth, hp]
  change (parseString sc (0x22 :: i)).toOption = _
  rw [hs, coded]
  rfl

theorem value_bracket {p : List ℕ} (hp : skipWhitespace p = 0x5b :: i) :
    parseValueDepth sc (levels + 1) p
      = if peek (skipWhitespace i) = 0x5d then .ok (.arr [], (skipWhitespace i).tail)
        else arrayLoop (parseValueDepth sc levels) ((skipWhitespace i).length + 1) .empty
          (skipWhitespace i) := by
  rw [parseValueDepth, hp]
  rfl

theorem value_brace {p : List ℕ} (hp : skipWhitespace p = 0x7b :: i) :
    parseValueDepth sc (levels + 1) p
      = if peek (skipWhitespace i) = 0x7d then .ok (.obj [], (skipWhitespace i).tail)
        else objectLoop (parseValueDepth sc levels) sc ((skipWhitespace i).length + 1) .empty
          (skipWhitespace i) := by
  rw [parseValueDepth, hp]
  rfl

theorem taken_emptyArray (hw : Spaces rfc8259 i (0x5d :: r)) :
    Taken sc .value (0x5b :: i) (.arr []) r := by
  intro _ _ levels hlev p hp
  obtain ⟨levels, rfl⟩ : ∃ k, levels = k + 1 := ⟨levels - 1, by omega⟩
  rw [value_bracket hp, skipWhitespace_of_spaces hw (not_isWhitespace_peek (by simp [peek]))]
  rfl

theorem taken_emptyObject (hw : Spaces rfc8259 i (0x7d :: r)) :
    Taken sc .value (0x7b :: i) (.obj []) r := by
  intro _ _ levels hlev p hp
  obtain ⟨levels, rfl⟩ : ∃ k, levels = k + 1 := ⟨levels - 1, by omega⟩
  rw [value_brace hp, skipWhitespace_of_spaces hw (not_isWhitespace_peek (by simp [peek]))]
  rfl

/-- The first element or member of a list is not its end. -/
theorem peek_elements {t : Tree} (h : Denotes .elements i t r) :
    peek (skipWhitespace i) ≠ 0x5d := by
  cases h with
  | element hw hv _ | elements hw hv _ _ =>
    obtain ⟨hsp, hb, -⟩ := denotes_start hv
    rwa [skipWhitespace_of_spaces hw hsp]

theorem peek_members {t : Tree} (h : Denotes .members i t r) :
    peek (skipWhitespace i) ≠ 0x7d := by
  cases h with
  | member hw | members hw =>
    rw [skipWhitespace_of_spaces hw (not_isWhitespace_peek (by simp [peek]))]
    simp [peek]

theorem taken_array {vs : List Tree} (h : Denotes .elements i (.arr vs) (0x5d :: r))
    (ih : Taken sc .elements i (.arr vs) (0x5d :: r)) :
    Taken sc .value (0x5b :: i) (.arr vs) r := by
  intro hi _ levels hlev p hp
  obtain ⟨levels, rfl⟩ : ∃ k, levels = k + 1 := ⟨levels - 1, by omega⟩
  rw [Tree.depth] at hlev
  rw [value_bracket hp, if_neg (peek_elements h), ih hi.tail rfl vs rfl levels (by omega) _
    (Nat.lt_succ_self _) .empty sized_empty _ (skipWhitespace_idem i), ← arrFrom_nil]
  rfl

theorem taken_object {ps : List (List ℕ × Tree)} (h : Denotes .members i (.obj ps) (0x7d :: r))
    (ih : Taken sc .members i (.obj ps) (0x7d :: r)) :
    Taken sc .value (0x7b :: i) (.obj ps) r := by
  intro hi _ levels hlev p hp
  obtain ⟨levels, rfl⟩ : ∃ k, levels = k + 1 := ⟨levels - 1, by omega⟩
  rw [Tree.depth] at hlev
  rw [value_brace hp, if_neg (peek_members h), ih hi.tail rfl ps rfl levels (by omega) _
    (Nat.lt_succ_self _) .empty sized_empty _ (skipWhitespace_idem i), ← objFrom_nil]
  rfl

end Complete

theorem Denotes.taken (sc : Scanner) {n : Nonterminal} {i r : List ℕ} {t : Tree}
    (h : Denotes n i t r) : Taken sc n i t r := by
  induction h with
  | null => exact taken_null
  | true => exact taken_true
  | false => exact taken_false
  | number h => exact taken_number h
  | string h => exact taken_string h
  | emptyArray hw => exact taken_emptyArray hw
  | array h ih => exact taken_array h ih
  | emptyObject hw => exact taken_emptyObject hw
  | object h ih => exact taken_object h ih
  | element hw hv hw' ih => exact taken_element hw hv ih hw'
  | elements hw hv hw' _ ihv ih => exact taken_elements hw hv ihv hw' ih
  | member hw hs hc hw' hv hw'' ih => exact taken_member hw hs hc hw' hv ih hw''
  | members hw hs hc hw' hv hw'' _ ihv ih => exact taken_members hw hs hc hw' hv ihv hw'' ih

/-! ### Texts -/

section Texts

variable {sc : Scanner} {data : List UInt8}

/-- The bytes are a text of the tree, and no value stands in more containers than the limit. -/
def TextOf (data : List UInt8) (t : Tree) : Prop :=
  DenotesText (data.map UInt8.toNat) t ∧ t.depth ≤ jsonMaxDepth

theorem jsonParseRawN_sound {v : JsonValue} (h : jsonParseRawN sc data = .ok v) :
    ∃ t, TextOf data t := by
  obtain ⟨⟨root, p⟩, hv, h⟩ := bind_eq_ok.1 h
  simp only at h
  split_ifs at h with hend
  rw [not_not] at hend
  obtain ⟨t, ht, hdepth⟩ := soundAt sc _ _ _ _ (bytes_map_toNat data) hv
  refine ⟨t, ⟨_, p, spaces_skipWhitespace _, ht, ?_⟩, by omega⟩
  rw [← hend]
  exact spaces_skipWhitespace p

theorem jsonParseRawN_complete (sc : Scanner) {t : Tree} (h : TextOf data t) :
    (jsonParseRawN sc data).toOption = coded t := by
  obtain ⟨⟨j, k, hw, hv, hw'⟩, hdepth⟩ := h
  have hj := skipWhitespace_of_spaces hw (denotes_start hv).1
  have hk := skipWhitespace_of_spaces hw' (not_isWhitespace_peek (by simp [peek]))
  have hval := Denotes.taken sc hv ((bytes_map_toNat data).suffix (spaces_suffix hw))
    (stop_of_spaces hw' (by simp [peek])) (jsonMaxDepth + 1) (by omega) _ hj
  rw [jsonParseRawN, toOption_bind, hval]
  cases coded t with
  | none => rfl
  | some v => simp [hk, Except.toOption]

/-- The parser succeeds on the texts of the grammar up to the limit and gives the value of the text,
which is what it does just when its counters last for the trees of the text; the scanner that is
compiled in makes no difference. -/
theorem jsonParseRawN_correct_iff (sc : Scanner) (data : List UInt8) :
    ((∀ v, jsonParseRawN sc data = .ok v ↔ ∃ t, TextOf data t ∧ v = value t)
        ↔ ∀ t, TextOf data t → Small t)
      ∧ ∀ sc', (jsonParseRawN sc' data).toOption = (jsonParseRawN sc data).toOption := by
  refine ⟨⟨?_, ?_⟩, ?_⟩
  · intro h t ht
    rw [← coded_eq_iff, ← jsonParseRawN_complete sc ht, toOption_eq_some]
    exact (h _).2 ⟨t, ht, rfl⟩
  · intro h v
    constructor
    · intro hv
      obtain ⟨t, ht⟩ := jsonParseRawN_sound hv
      have hc := jsonParseRawN_complete sc ht
      rw [(coded_eq_iff t).2 (h t ht), toOption_eq_some, hv] at hc
      exact ⟨t, ht, Except.ok.inj hc⟩
    · rintro ⟨t, ht, rfl⟩
      rw [← toOption_eq_some, jsonParseRawN_complete sc ht]
      exact (coded_eq_iff t).2 (h t ht)
  · intro sc'
    have hsub : ∀ a b : Scanner, ∀ v, jsonParseRawN a data = .ok v → jsonParseRawN b data = .ok v := by
      intro a b v hv
      obtain ⟨t, ht⟩ := jsonParseRawN_sound hv
      have ha := jsonParseRawN_complete a ht
      rw [← toOption_eq_some, jsonParseRawN_complete b ht, ← ha, toOption_eq_some]
      exact hv
    apply Option.ext
    intro v
    rw [toOption_eq_some, toOption_eq_some]
    exact ⟨hsub _ _ v, hsub _ _ v⟩

/-- A string literal of `n` letters. -/
def letters (n : ℕ) : List UInt8 := 0x22 :: (List.replicate n 0x61 ++ [0x22])

theorem charsText_replicate (r : List ℕ) : ∀ n : ℕ,
    CharsText (List.replicate n 0x61 ++ r) (List.replicate n 0x61) r
  | 0 => .nil r
  | n + 1 => .cons (charText_safe (by decide) _) (charsText_replicate r n)

theorem textOf_letters (n : ℕ) : TextOf (letters n) (.str (List.replicate n 0x61)) := by
  refine ⟨⟨_, [], .nil _, ?_, .nil []⟩, Nat.zero_le _⟩
  have hmap : (letters n).map UInt8.toNat = 0x22 :: (List.replicate n 0x61 ++ [0x22]) := by
    rw [letters, List.map_cons, List.map_append, List.map_replicate]
    rfl
  rw [hmap]
  exact .string (charsText_replicate [0x22] n)

/-- A string of 2 ^ 32 letters gets the length 0. -/
theorem not_correct_letters :
    jsonParseRawN .scalar (letters (2 ^ 32)) = .ok (.str (List.replicate (2 ^ 32) 0x61) 0)
      ∧ ¬ ∀ v, jsonParseRawN .scalar (letters (2 ^ 32)) = .ok v
        ↔ ∃ t, TextOf (letters (2 ^ 32)) t ∧ v = value t := by
  have ht := textOf_letters (2 ^ 32)
  have hp : jsonParseRawN .scalar (letters (2 ^ 32))
      = .ok (.str (List.replicate (2 ^ 32) 0x61) 0) := by
    rw [← toOption_eq_some, jsonParseRawN_complete .scalar ht, coded, List.length_replicate,
      Nat.mod_self]
  refine ⟨hp, fun h => ?_⟩
  have hv := (h _).2 ⟨_, ht, rfl⟩
  rw [hp, value, List.length_replicate] at hv
  injection hv with hv
  injection hv with _ hlen
  norm_num at hlen

end Texts

end Aether

end Qjs
