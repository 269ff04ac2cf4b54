import Mathlib

/-!
# Generalised UTF-8

Strings of code points, surrogates included, as bytes and as 16-bit units. A byte string is
well formed (`Valid`) when it is the encoding of code points among which no left surrogate stands
right before a right one: those two are written as the one code point they join to. Then the
code points can be read back from the bytes (`decode_encodeAll`), and cutting between two units of
a code point and joining the parts again are inverse to each other (`join_lead_trail`).
-/

namespace Qjs

namespace Wtf8

/-- The bytes of a code point. -/
def encode (c : ℕ) : List ℕ :=
  if c < 0x80 then [c]
  else if c < 0x800 then [0xc0 + c / 0x40, 0x80 + c % 0x40]
  else if c < 0x10000 then [0xe0 + c / 0x1000, 0x80 + c / 0x40 % 0x40, 0x80 + c % 0x40]
  else [0xf0 + c / 0x40000, 0x80 + c / 0x1000 % 0x40, 0x80 + c / 0x40 % 0x40, 0x80 + c % 0x40]

def encodeAll (cs : List ℕ) : List ℕ := cs.flatMap encode

/-- The two units of a code point above the 16-bit range. -/
def lead (c : ℕ) : ℕ := 0xd800 + (c - 0x10000) / 0x400

def trail (c : ℕ) : ℕ := 0xdc00 + (c - 0x10000) % 0x400

def units (c : ℕ) : List ℕ := if c < 0x10000 then [c] else [lead c, trail c]

def unitsAll (cs : List ℕ) : List ℕ := cs.flatMap units

def IsLead (c : ℕ) : Prop := 0xd800 ≤ c ∧ c < 0xdc00

def IsTrail (c : ℕ) : Prop := 0xdc00 ≤ c ∧ c < 0xe000

instance : DecidablePred IsLead := fun _ => inferInstanceAs (Decidable (_ ∧ _))

instance : DecidablePred IsTrail := fun _ => inferInstanceAs (Decidable (_ ∧ _))

/-- The code point of two surrogates. -/
def join (l t : ℕ) : ℕ := 0x10000 + l % 0x400 * 0x400 + t % 0x400

/-- The code points of the bytes, read without any check. -/
def decode : List ℕ → List ℕ
  | [] => []
  | b₀ :: bs =>
    if b₀ < 0xc0 then b₀ :: decode bs
    else if b₀ < 0xe0 then
      match bs with
      | b₁ :: bs => (b₀ % 0x20 * 0x40 + b₁ % 0x40) :: decode bs
      | _ => []
    else if b₀ < 0xf0 then
      match bs with
      | b₁ :: b₂ :: bs => (b₀ % 0x10 * 0x1000 + b₁ % 0x40 * 0x40 + b₂ % 0x40) :: decode bs
      | _ => []
    else
      match bs with
      | b₁ :: b₂ :: b₃ :: bs =>
        (b₀ % 0x08 * 0x40000 + b₁ % 0x40 * 0x1000 + b₂ % 0x40 * 0x40 + b₃ % 0x40) :: decode bs
      | _ => []

/-- Code points in range, no pair of surrogates that should have been joined. -/
structure CodePoints (cs : List ℕ) : Prop where
  lt : ∀ c ∈ cs, c < 0x110000
  unjoined : cs.IsChain fun c d => ¬(IsLead c ∧ IsTrail d)

def Valid (bs : List ℕ) : Prop := ∃ cs, CodePoints cs ∧ bs = encodeAll cs

/-! ### Bytes and code points -/

theorem encode_length (c : ℕ) : 1 ≤ (encode c).length ∧ (encode c).length ≤ 4 := by
  unfold encode
  split_ifs <;> simp

theorem encode_ne_nil (c : ℕ) : encode c ≠ [] := by
  have := (encode_length c).1
  intro h
  simp [h] at this

@[simp] theorem encodeAll_nil : encodeAll [] = [] := rfl

@[simp] theorem encodeAll_cons (c : ℕ) (cs : List ℕ) :
    encodeAll (c :: cs) = encode c ++ encodeAll cs := rfl

theorem encodeAll_singleton (c : ℕ) : encodeAll [c] = encode c := List.append_nil _

@[simp] theorem encodeAll_append (cs ds : List ℕ) :
    encodeAll (cs ++ ds) = encodeAll cs ++ encodeAll ds := List.flatMap_append

@[simp] theorem unitsAll_nil : unitsAll [] = [] := rfl

@[simp] theorem unitsAll_cons (c : ℕ) (cs : List ℕ) :
    unitsAll (c :: cs) = units c ++ unitsAll cs := rfl

@[simp] theorem unitsAll_append (cs ds : List ℕ) :
    unitsAll (cs ++ ds) = unitsAll cs ++ unitsAll ds := List.flatMap_append

theorem eq_nil_of_encodeAll {cs : List ℕ} (h : (encodeAll cs).length = 0) : cs = [] := by
  cases cs with
  | nil => rfl
  | cons c cs =>
    have := (encode_length c).1
    rw [encodeAll_cons, List.length_append] at h
    omega

/-- The first byte tells how many there are. -/
theorem decode_cons (b₀ b₁ b₂ b₃ : ℕ) (bs : List ℕ) :
    (b₀ < 0xc0 → decode (b₀ :: bs) = b₀ :: decode bs)
      ∧ (0xc0 ≤ b₀ → b₀ < 0xe0 →
        decode (b₀ :: b₁ :: bs) = (b₀ % 0x20 * 0x40 + b₁ % 0x40) :: decode bs)
      ∧ (0xe0 ≤ b₀ → b₀ < 0xf0 → decode (b₀ :: b₁ :: b₂ :: bs)
        = (b₀ % 0x10 * 0x1000 + b₁ % 0x40 * 0x40 + b₂ % 0x40) :: decode bs)
      ∧ (0xf0 ≤ b₀ → decode (b₀ :: b₁ :: b₂ :: b₃ :: bs)
        = (b₀ % 0x08 * 0x40000 + b₁ % 0x40 * 0x1000 + b₂ % 0x40 * 0x40 + b₃ % 0x40)
          :: decode bs) := by
  refine ⟨fun h => ?_, fun h h' => ?_, fun h h' => ?_, fun h => ?_⟩
  · rw [decode.eq_def]
    simp only [h, if_true]
  · rw [decode.eq_def]
    simp only [not_lt.2 h, h', if_false, if_true]
  · have h0 : ¬b₀ < 0xc0 := by omega
    rw [decode.eq_def]
    simp only [h0, not_lt.2 h, h', if_false, if_true]
  · have h0 : ¬b₀ < 0xc0 := by omega
    have h1 : ¬b₀ < 0xe0 := by omega
    rw [decode.eq_def]
    simp only [h0, h1, not_lt.2 h, if_false]

theorem decode_one {b : ℕ} (h : b < 0xc0) (bs : List ℕ) : decode (b :: bs) = b :: decode bs :=
  (decode_cons b 0 0 0 bs).1 h

theorem decode_two {b₀ : ℕ} (h : 0xc0 ≤ b₀) (h' : b₀ < 0xe0) (b₁ : ℕ) (bs : List ℕ) :
    decode (b₀ :: b₁ :: bs) = (b₀ % 0x20 * 0x40 + b₁ % 0x40) :: decode bs :=
  (decode_cons b₀ b₁ 0 0 bs).2.1 h h'

theorem decode_three {b₀ : ℕ} (h : 0xe0 ≤ b₀) (h' : b₀ < 0xf0) (b₁ b₂ : ℕ) (bs : List ℕ) :
    decode (b₀ :: b₁ :: b₂ :: bs)
      = (b₀ % 0x10 * 0x1000 + b₁ % 0x40 * 0x40 + b₂ % 0x40) :: decode bs :=
  (decode_cons b₀ b₁ b₂ 0 bs).2.2.1 h h'

theorem decode_four {b₀ : ℕ} (h : 0xf0 ≤ b₀) (b₁ b₂ b₃ : ℕ) (bs : List ℕ) :
    decode (b₀ :: b₁ :: b₂ :: b₃ :: bs)
      = (b₀ % 0x08 * 0x40000 + b₁ % 0x40 * 0x1000 + b₂ % 0x40 * 0x40 + b₃ % 0x40)
        :: decode bs :=
  (decode_cons b₀ b₁ b₂ b₃ bs).2.2.2 h

theorem decode_encode_append {c : ℕ} (hc : c < 0x110000) (bs : List ℕ) :
    decode (encode c ++ bs) = c :: decode bs := by
  unfold encode
  split_ifs with h1 h2 h3 <;> simp only [List.cons_append, List.nil_append]
  · rw [decode_one (by omega)]
  · rw [decode_two (by omega) (by omega)]
    congr 1
    omega
  · rw [decode_three (by omega) (by omega)]
    congr 1
    omega
  · rw [decode_four (by omega)]
    congr 1
    omega

theorem decode_encodeAll : ∀ {cs : List ℕ}, (∀ c ∈ cs, c < 0x110000) → decode (encodeAll cs) = cs
  | [], _ => by simp [decode]
  | c :: cs, h => by
    rw [encodeAll_cons, decode_encode_append (h c List.mem_cons_self),
      decode_encodeAll fun d hd => h d (List.mem_cons_of_mem c hd)]

theorem CodePoints.decode_encodeAll {cs : List ℕ} (h : CodePoints cs) :
    decode (encodeAll cs) = cs :=
  Wtf8.decode_encodeAll h.lt

theorem valid_iff {bs : List ℕ} :
    Valid bs ↔ CodePoints (decode bs) ∧ encodeAll (decode bs) = bs := by
  constructor
  · rintro ⟨cs, h, rfl⟩
    rw [h.decode_encodeAll]
    exact ⟨h, rfl⟩
  · rintro ⟨h, he⟩
    exact ⟨_, h, he.symm⟩

theorem encodeAll_injective {cs ds : List ℕ} (hc : CodePoints cs) (hd : CodePoints ds)
    (h : encodeAll cs = encodeAll ds) : cs = ds := by
  rw [← hc.decode_encodeAll, ← hd.decode_encodeAll, h]

/-! ### Parts of a string -/

theorem CodePoints.nil : CodePoints [] := ⟨by simp, List.isChain_nil⟩

theorem CodePoints.singleton {c : ℕ} (h : c < 0x110000) : CodePoints [c] :=
  ⟨by simpa using h, List.isChain_singleton c⟩

theorem CodePoints.left {cs ds : List ℕ} (h : CodePoints (cs ++ ds)) : CodePoints cs :=
  ⟨fun c hc => h.lt c (List.mem_append_left _ hc), h.unjoined.left_of_append⟩

theorem CodePoints.right {cs ds : List ℕ} (h : CodePoints (cs ++ ds)) : CodePoints ds :=
  ⟨fun c hc => h.lt c (List.mem_append_right _ hc), h.unjoined.right_of_append⟩

/-- Two strings can be put side by side unless a pair of surrogates would meet. -/
theorem CodePoints.append {cs ds : List ℕ} (hc : CodePoints cs) (hd : CodePoints ds)
    (h : ∀ c ∈ cs.getLast?, ∀ d ∈ ds.head?, ¬(IsLead c ∧ IsTrail d)) : CodePoints (cs ++ ds) := by
  refine ⟨?_, List.isChain_append.2 ⟨hc.unjoined, hd.unjoined, h⟩⟩
  intro c hm
  rcases List.mem_append.1 hm with hm | hm
  · exact hc.lt c hm
  · exact hd.lt c hm

/-! ### Surrogates -/

theorem lead_isLead {c : ℕ} (h : c < 0x110000) : IsLead (lead c) := by
  unfold IsLead lead
  omega

theorem trail_isTrail (c : ℕ) : IsTrail (trail c) := by
  unfold IsTrail trail
  omega

theorem join_lead_trail {c : ℕ} (h1 : 0x10000 ≤ c) (h2 : c < 0x110000) :
    join (lead c) (trail c) = c := by
  unfold join lead trail
  omega

theorem join_bounds (l t : ℕ) : 0x10000 ≤ join l t ∧ join l t < 0x110000 := by
  unfold join
  omega

theorem units_join {l t : ℕ} (hl : IsLead l) (ht : IsTrail t) : units (join l t) = [l, t] := by
  obtain ⟨hl1, hl2⟩ := hl
  obtain ⟨ht1, ht2⟩ := ht
  have hj := join_bounds l t
  rw [units, if_neg (by omega)]
  unfold lead trail join
  simp only [List.cons.injEq, and_true]
  omega

theorem units_length (c : ℕ) : (units c).length = if c < 0x10000 then 1 else 2 := by
  unfold units
  split_ifs <;> rfl

/-- A pair that meets at the seam of two strings is written as one code point. -/
theorem CodePoints.append_join {cs ds : List ℕ} {l t : ℕ} (hc : CodePoints (cs ++ [l]))
    (hd : CodePoints (t :: ds)) : CodePoints (cs ++ join l t :: ds) := by
  obtain ⟨hj1, hj2⟩ := join_bounds l t
  have hnl : ¬IsLead (join l t) := fun h => by
    have := h.2
    omega
  have hnt : ¬IsTrail (join l t) := fun h => by
    have := h.2
    omega
  have hd' : CodePoints ([t] ++ ds) := hd
  have hjd : CodePoints ([join l t] ++ ds) := by
    refine (CodePoints.singleton hj2).append hd'.right ?_
    intro c hc' d _ hp
    simp only [List.getLast?_singleton, Option.mem_def, Option.some.injEq] at hc'
    exact hnl (hc' ▸ hp.1)
  refine hc.left.append hjd ?_
  intro c _ d hd'' hp
  simp only [List.head?_cons, Option.mem_def, Option.some.injEq] at hd''
  exact hnt (hd'' ▸ hp.2)

theorem CodePoints.cons_trail {cs : List ℕ} {t : ℕ} (h : CodePoints cs) (ht : IsTrail t) :
    CodePoints ([t] ++ cs) := by
  obtain ⟨h1, h2⟩ := ht
  refine (CodePoints.singleton (by omega)).append h ?_
  intro c hc d _ hp
  simp only [List.getLast?_singleton, Option.mem_def, Option.some.injEq] at hc
  have := hp.1.2
  omega

theorem CodePoints.concat_lead {cs : List ℕ} {l : ℕ} (h : CodePoints cs) (hl : IsLead l) :
    CodePoints (cs ++ [l]) := by
  obtain ⟨h1, h2⟩ := hl
  refine h.append (.singleton (by omega)) ?_
  intro c _ d hd hp
  simp only [List.head?_cons, Option.mem_def, Option.some.injEq] at hd
  have := hp.2.1
  omega

/-! ### Slices of units -/

theorem units_pair {c : ℕ} (h : 0x10000 ≤ c) : units c = [lead c, trail c] := by
  rw [units, if_neg (by omega)]

theorem eq_nil_of_unitsAll {cs : List ℕ} (h : (unitsAll cs).length = 0) : cs = [] := by
  cases cs with
  | nil => rfl
  | cons c cs =>
    rw [unitsAll_cons, List.length_append, units_length] at h
    split_ifs at h <;> omega

theorem units_trail (c : ℕ) : units (trail c) = [trail c] := by
  rw [units, if_pos]
  unfold trail
  omega

theorem units_lead {c : ℕ} (h : c < 0x110000) : units (lead c) = [lead c] := by
  rw [units, if_pos]
  unfold lead
  omega

/-- The code point that a slice cuts in two, if there is one. -/
def Halved (r : List ℕ) : Prop := r = [] ∨ ∃ c, r = [c] ∧ 0x10000 ≤ c ∧ c < 0x110000

variable {cs pre r mid l post : List ℕ}

theorem Halved.length_le (h : Halved r) : r.length ≤ 1 := by
  rcases h with rfl | ⟨c, rfl, -⟩ <;> simp

theorem Halved.drop_units (h : Halved r) : (unitsAll r).drop r.length = unitsAll (r.map trail) := by
  rcases h with rfl | ⟨c, rfl, h1, -⟩
  · rfl
  · simp [units_pair h1, units_trail]

theorem Halved.units_eq (h : Halved r) : unitsAll r = unitsAll (r.map lead) ++ r.map trail := by
  rcases h with rfl | ⟨c, rfl, h1, h2⟩
  · rfl
  · simp [units_pair h1, units_lead h2]

theorem Halved.length_lead (h : Halved r) : (unitsAll (r.map lead)).length = r.length := by
  rcases h with rfl | ⟨c, rfl, -, h2⟩
  · rfl
  · simp [units_lead h2]

/-- `r` and `l` are what a slice cuts at its start and at its end. -/
structure Cut (cs pre r mid l post : List ℕ) : Prop where
  eq : cs = pre ++ (r ++ (mid ++ (l ++ post)))
  halved_r : Halved r
  halved_l : Halved l

/-- The units between the two cuts. -/
theorem Cut.units_slice (h : Cut cs pre r mid l post) :
    ((unitsAll cs).drop ((unitsAll pre).length + r.length)).take
        ((unitsAll (pre ++ (r ++ mid))).length + l.length - ((unitsAll pre).length + r.length))
      = unitsAll (r.map trail ++ (mid ++ l.map lead)) := by
  have hr := h.halved_r.drop_units
  have hr_le : r.length ≤ (unitsAll r).length := by
    rw [h.halved_r.units_eq, List.length_append, h.halved_r.length_lead]
    omega
  have hr_len : (unitsAll (r.map trail)).length = (unitsAll r).length - r.length := by
    rw [← hr, List.length_drop]
  have hdrop : ((unitsAll cs).drop ((unitsAll pre).length + r.length))
      = unitsAll (r.map trail ++ (mid ++ l.map lead)) ++ (l.map trail ++ unitsAll post) := by
    rw [h.eq, unitsAll_append, ← List.drop_drop, List.drop_left, unitsAll_append, unitsAll_append,
      unitsAll_append, List.drop_append_of_le_length hr_le, hr, h.halved_l.units_eq]
    simp only [unitsAll_append, List.append_assoc]
  rw [hdrop]
  apply List.take_left'
  simp only [unitsAll_append, List.length_append, hr_len, h.halved_l.length_lead]
  omega

/-- The slice is a string again: what is cut stands at its ends. -/
theorem Cut.codePoints (h : Cut cs pre r mid l post) (hcs : CodePoints cs) :
    CodePoints (r.map trail ++ (mid ++ l.map lead)) := by
  rw [h.eq] at hcs
  have hmid : CodePoints (mid ++ l.map lead) := by
    have hm : CodePoints mid := hcs.right.right.left
    rcases h.halved_l with rfl | ⟨c, rfl, -, hc⟩
    · simpa using hm
    · exact hm.concat_lead (lead_isLead hc)
  rcases h.halved_r with rfl | ⟨c, rfl, -, -⟩
  · exact hmid
  · exact hmid.cons_trail (trail_isTrail c)

end Wtf8

end Qjs
