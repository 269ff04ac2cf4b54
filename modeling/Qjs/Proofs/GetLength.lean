import Qjs.GetLength
import Qjs.Proofs.PropsMap

/-!
# The instruction for `length` reads as the generic function does, but for a stale variable

The walk over the prototypes ends with the first property of the name, so that what it answers is a
statement about the chain (`runGetter_readChain_iff`). The instruction differs where the value is
no pointer: it then looks at the local variable instead of the value.
-/

namespace Qjs.GetLength

variable {a : Arch} {h : Heap a} {obj val p : JSValue a} {prop : Property a} {n : ℤ}

/-! ### The walk -/

/-- The end of a walk that finds a property. -/
def Property.read (obj : JSValue a) : Property a → Outcome a
  | .value v => .value v
  | .getter g => if g = jsUndefined then .value jsUndefined else .tailCall obj g

theorem FirstLength.unique {prop' : Property a} (hp : FirstLength h p prop)
    (hp' : FirstLength h p prop') : prop = prop' := by
  induction hp with
  | own ho =>
    rcases hp' with ho' | ⟨hn, -, -⟩
    · exact Option.some_inj.1 (ho.symm.trans ho')
    · simp [ho] at hn
  | proto hn _ _ ih =>
    rcases hp' with ho' | ⟨-, -, hp'⟩
    · simp [hn] at ho'
    · exact ih hp'

theorem readChain_of_first (hp : FirstLength h p prop) : readChain h obj p = prop.read obj := by
  induction hp with
  | own ho =>
    rw [readChain, ho]
    rename_i prop
    rcases prop with v | g <;> rfl
  | proto hn hne _ ih =>
    rw [readChain, hn]
    simp only [dif_neg hne]
    exact ih

theorem readChain_cases (h : Heap a) (obj p : JSValue a) :
    (∃ prop, FirstLength h p prop ∧ readChain h obj p = prop.read obj)
      ∨ (∀ prop, ¬FirstLength h p prop) ∧ readChain h obj p = .value jsUndefined := by
  induction hk : h.rank p using Nat.strong_induction_on generalizing p with
  | _ k ih =>
    by_cases ho : ∃ prop, ownLength h p = some prop
    · obtain ⟨prop, ho⟩ := ho
      exact Or.inl ⟨prop, .own ho, readChain_of_first (.own ho)⟩
    have hn : ownLength h p = none := Option.eq_none_iff_forall_ne_some.2 fun q hq => ho ⟨q, hq⟩
    by_cases hp : (h.cell p).toObject.proto = jsNull
    · refine Or.inr ⟨?_, by rw [readChain, hn]; simp only [dif_pos hp]⟩
      rintro prop (ho | ⟨-, hne, -⟩)
      · simp [hn] at ho
      · exact hne hp
    rcases ih _ (hk ▸ h.rank_proto p hp) _ rfl with ⟨prop, hf, -⟩ | ⟨hnone, hr⟩
    · have hf := FirstLength.proto hn hp hf
      exact Or.inl ⟨prop, hf, readChain_of_first hf⟩
    · refine Or.inr ⟨?_, by rw [readChain, hn]; simp only [dif_neg hp]; exact hr⟩
      rintro prop (ho | ⟨-, -, hf⟩)
      · simp [hn] at ho
      · exact hnone prop hf

/-! ### Words and getters -/

theorem toNat_ofInt_even (hn : 0 < a.bits) {z : ℤ} (hz : z % 2 = 0) :
    (BitVec.ofInt a.bits z).toNat % 2 = 0 := by
  obtain ⟨k, hk⟩ : ∃ k, a.bits = k + 1 := ⟨a.bits - 1, by omega⟩
  rw [BitVec.toNat_ofInt, hk, Nat.pow_succ]
  push_cast
  have h2 : z % (2 ^ k * 2 : ℤ) % 2 = z % 2 := Int.emod_emod_of_dvd z (Dvd.intro_left _ rfl)
  have hnn : 0 ≤ z % (2 ^ k * 2 : ℤ) := Int.emod_nonneg _ (by positivity)
  omega

theorem jsIsInt_jsNewShortInt : jsIsInt (jsNewShortInt n : JSValue a) := by
  have hb : 0 < a.bits := by cases a <;> simp [Arch.bits, Arch.jsw]
  have hz : int32 (2 * n) % 2 = 0 := by
    rw [int32, BitVec.toInt_ofInt, Int.bmod_def]
    split_ifs <;> omega
  simpa [jsIsInt, jsNewShortInt, ofInt32] using toNat_ofInt_even hb hz

theorem special_toNat (a : Arch) {tag : ℕ} (ht : tag < 32) :
    (jsValueMakeSpecial tag 0 : JSValue a).toNat = tag := by
  rw [jsValueMakeSpecial, BitVec.toNat_ofNat]
  refine Nat.mod_eq_of_lt (lt_of_lt_of_le (by simpa using ht) ?_)
  cases a <;> simp [Arch.bits, Arch.jsw]

theorem jsNewShortInt_ne_undefined : (jsNewShortInt n : JSValue a) ≠ jsUndefined := by
  intro he
  have hi := jsIsInt_jsNewShortInt (a := a) (n := n)
  rw [he] at hi
  simp [jsIsInt, jsUndefined, special_toNat, jsTagUndefined] at hi

theorem classProto_ne_null (h : Heap a) (c : ℕ) : h.classProto c ≠ jsNull := by
  intro he
  have hp := h.classProto_ptr c
  rw [he] at hp
  cases a <;> simp [jsIsPtr, jsNull, special_toNat, jsTagNull, Arch.jsw, jsTagPtr] at hp

theorem jsArrayGetLength_eq_iff {v : JSValue a} :
    jsArrayGetLength h obj = .value v ↔ ∃ m, jsNewShortInt m = v ∧ IsArrayOf h obj m := by
  unfold jsArrayGetLength IsArrayOf
  by_cases hp : jsIsPtr obj
  · rcases hc : h.cell obj with q | _ | s | arr | w | _ <;> simp [hp]
    by_cases hq : q.classId = jsClassArray <;> simp [hq]
  · simp [hp]

theorem jsStringGetLength_eq_iff {v : JSValue a} :
    jsStringGetLength h obj = .value v ↔ ∃ m, jsNewShortInt m = v ∧ IsStringOf h obj m := by
  unfold jsStringGetLength IsStringOf
  by_cases hp : jsIsPtr obj
  · rcases hc : h.cell obj with q | _ | s | arr | w | _ <;> simp [hp]
  · by_cases ht : jsValueGetSpecialTag obj = jsTagStringChar <;> simp [hp, ht]

theorem cFunctionOf_undefined : cFunctionOf h jsUndefined = .other := by
  refine if_neg fun hf => ?_
  have ht := hf.2
  simp [jsValueGetSpecialTag, jsUndefined, special_toNat, jsTagUndefined, jsTagShortFunc] at ht

theorem runGetter_tailCall_iff {g v : JSValue a} :
    (Outcome.tailCall obj g).runGetter h = .value v ↔ ∃ m, jsNewShortInt m = v ∧
      (cFunctionOf h g = .jsArrayGetLength ∧ IsArrayOf h obj m
        ∨ cFunctionOf h g = .jsStringGetLength ∧ IsStringOf h obj m) := by
  rcases hg : cFunctionOf h g with _ | _ | _
  · simpa [Outcome.runGetter, hg] using jsArrayGetLength_eq_iff
  · simpa [Outcome.runGetter, hg] using jsStringGetLength_eq_iff
  · simp [Outcome.runGetter, hg]

theorem runGetter_read_iff : (prop.read obj).runGetter h = .value (jsNewShortInt n) ↔
    prop = .value (jsNewShortInt n) ∨ ∃ g m, prop = .getter g ∧
      (jsNewShortInt m : JSValue a) = jsNewShortInt n ∧
      (cFunctionOf h g = .jsArrayGetLength ∧ IsArrayOf h obj m
        ∨ cFunctionOf h g = .jsStringGetLength ∧ IsStringOf h obj m) := by
  rcases prop with v | g
  · simp [Property.read, Outcome.runGetter]
  rw [Property.read]
  by_cases hg : g = jsUndefined
  · rw [if_pos hg]
    constructor
    · intro he
      exact absurd (Outcome.value.inj he).symm jsNewShortInt_ne_undefined
    · rintro (he | ⟨g', m, he, -, hm⟩)
      · simp at he
      · obtain rfl := Property.getter.inj he
        simp [hg, cFunctionOf_undefined] at hm
  · rw [if_neg hg, runGetter_tailCall_iff]
    simp

/-- What a walk answers, once the getters of the library are run, is what the chain tells. -/
theorem runGetter_readChain_iff :
    (readChain h obj p).runGetter h = .value (jsNewShortInt n) ↔ ChainTells h obj p n := by
  unfold ChainTells
  rcases readChain_cases h obj p with ⟨prop, hf, hr⟩ | ⟨hnone, hr⟩
  · rw [hr, runGetter_read_iff]
    constructor
    · rintro (rfl | ⟨g, m, rfl, hm⟩)
      · exact Or.inl hf
      · exact Or.inr ⟨g, m, hf, hm⟩
    · rintro (hf' | ⟨g, m, hf', hm⟩)
      · exact Or.inl (hf.unique hf')
      · exact Or.inr ⟨g, m, hf.unique hf', hm⟩
  · rw [hr]
    simp only [Outcome.runGetter, Outcome.value.injEq, jsNewShortInt_ne_undefined.symm, hnone,
      false_and, exists_false, or_self]

/-! ### The instruction -/

/-- A plain array has no property of its own. -/
theorem readChain_plainArray (hp : IsPlainArray h obj n) :
    jsGetPropertyInternal h obj = readChain h obj (h.classProto jsClassArray) := by
  obtain ⟨hptr, q, hq, -, hproto, hempty, -⟩ := hp
  have hprops : q.props = .empty := by
    rcases hr : q.props with _ | t | t
    · rfl
    all_goals simp [hr, Props.isEmptyProps] at hempty
  have hown : ownLength h obj = none := by
    rw [ownLength, hq, Cell.toObject, hprops, Props.table,
      (Represents.empty a).find_none_iff.2 (by simp)]
    rfl
  rw [jsGetPropertyInternal, if_neg (not_not.2 hptr), hq, readChain, hown]
  simp only [hq, Cell.toObject, hproto, dif_neg (classProto_ne_null h _)]

theorem jsGetPropertyInternal_string (hp : jsIsPtr obj) (hs : IsStringOf h obj n) :
    jsGetPropertyInternal h obj = readChain h obj (h.classProto jsClassString) := by
  rcases hs with ⟨-, s, hs, -⟩ | ⟨hn, -⟩
  · rw [jsGetPropertyInternal, if_neg (not_not.2 hp), hs]
  · exact absurd hp hn

/-- The special tags are odd, those of short floats end in other bits. -/
theorem not_number_of_tag {t : ℕ} (ht : jsValueGetSpecialTag obj = t) (h3 : t % 8 = 3) :
    ¬(jsIsInt obj ∨ jsIsShortFloat obj) := by
  unfold jsValueGetSpecialTag at ht
  rw [jsIsInt, jsIsShortFloat, jsTagShortFloat]
  simp only [beq_iff_eq, Bool.and_eq_true, not_or, not_and]
  omega

/-- A value that is no pointer is read from the prototype of its class, or cannot be read. -/
theorem jsGetPropertyInternal_primitive (hp : ¬jsIsPtr obj) :
    (∃ q, (∀ q', IsPrimitiveProto h obj q' ↔ q' = q) ∧
      jsGetPropertyInternal h obj = readChain h obj q)
      ∨ (∀ q, ¬IsPrimitiveProto h obj q) ∧ ∃ m, jsGetPropertyInternal h obj = .exception m := by
  have hnot {t : ℕ} (ht : jsValueGetSpecialTag obj = t) (h3 : t % 8 = 3) :=
    not_number_of_tag ht h3
  unfold jsGetPropertyInternal IsPrimitiveProto
  rw [if_pos hp]
  by_cases hn : jsIsInt obj ∨ jsIsShortFloat obj
  · rw [if_pos hn]
    refine Or.inl ⟨_, fun q' => ?_, rfl⟩
    have h1 : jsValueGetSpecialTag obj ≠ jsTagBool := fun ht => hnot ht rfl hn
    have h2 : jsValueGetSpecialTag obj ≠ jsTagShortFunc := fun ht => hnot ht rfl hn
    have h3 : jsValueGetSpecialTag obj ≠ jsTagStringChar := fun ht => hnot ht rfl hn
    simp [hn, h1, h2, h3]
  rw [if_neg hn]
  simp only [hn, false_and, false_or]
  by_cases h1 : jsValueGetSpecialTag obj = jsTagBool
  · rw [if_pos h1]
    refine Or.inl ⟨_, fun q' => ?_, rfl⟩
    simp [h1, jsTagBool, jsTagShortFunc, jsTagStringChar]
  rw [if_neg h1]
  by_cases h2 : jsValueGetSpecialTag obj = jsTagShortFunc
  · rw [if_pos h2]
    refine Or.inl ⟨_, fun q' => ?_, rfl⟩
    simp [h2, jsTagBool, jsTagShortFunc, jsTagStringChar]
  rw [if_neg h2]
  by_cases h3 : jsValueGetSpecialTag obj = jsTagStringChar
  · rw [if_pos h3]
    refine Or.inl ⟨_, fun q' => ?_, rfl⟩
    simp [h3, jsTagBool, jsTagShortFunc, jsTagStringChar]
  rw [if_neg h3]
  refine Or.inr ⟨by simp [h1, h2, h3], ?_⟩
  split_ifs <;> exact ⟨_, rfl⟩

/-- Off its fast paths the instruction is the generic read. -/
theorem getLengthCommon_slow (hp : jsIsPtr obj) (harr : ∀ n, ¬IsPlainArray h obj n)
    (hstr : ∀ n, ¬IsStringOf h obj n) :
    getLengthCommon h obj val = jsGetPropertyInternal h obj := by
  unfold getLengthCommon
  rw [if_pos hp]
  rcases hc : h.cell obj with q | _ | s | arr | w | _
  · simp only
    by_cases hcl : q.classId = jsClassArray
    · rw [if_pos hcl, if_pos]
      by_contra hno
      rw [not_or, not_not, not_not] at hno
      exact harr _ ⟨hp, q, hc, hcl, hno.1, hno.2, rfl⟩
    · rw [if_neg hcl]
  · rfl
  · exact absurd (Or.inl ⟨hp, s, hc, rfl⟩) (hstr _)
  all_goals rfl

theorem getLengthCommon_plainArray (hp : IsPlainArray h obj n) :
    getLengthCommon h obj val = .value (jsNewShortInt n) := by
  obtain ⟨hptr, q, hq, hcl, hproto, hempty, rfl⟩ := hp
  simp [getLengthCommon, hptr, hq, hcl, hproto, hempty]

theorem getLengthCommon_string (hp : jsIsPtr obj) (hs : IsStringOf h obj n) :
    getLengthCommon h obj val = .value (jsNewShortInt n) := by
  rcases hs with ⟨-, s, hs, rfl⟩ | ⟨hn, -⟩
  · simp [getLengthCommon, hp, hs]
  · exact absurd hp hn

theorem value_agrees_iff : (Outcome.value (jsNewShortInt n)).runGetter h
    = (readChain h obj p).runGetter h ↔ ChainTells h obj p n := by
  rw [eq_comm, ← runGetter_readChain_iff]
  rfl

theorem IsPlainArray.unique {m : ℤ} (hn : IsPlainArray h obj n) (hm : IsPlainArray h obj m) :
    m = n := by
  obtain ⟨-, q, hq, -, -, -, rfl⟩ := hn
  obtain ⟨-, q', hq', -, -, -, rfl⟩ := hm
  rw [Cell.object.inj (hq.symm.trans hq')]

theorem IsPlainArray.not_string {m : ℤ} (hn : IsPlainArray h obj n) : ¬IsStringOf h obj m := by
  obtain ⟨hp, q, hq, -⟩ := hn
  rintro (⟨-, s, hs, -⟩ | ⟨hnp, -⟩)
  · simp [hq] at hs
  · exact hnp hp

theorem IsStringOf.unique {m : ℤ} (hp : jsIsPtr obj) (hn : IsStringOf h obj n)
    (hm : IsStringOf h obj m) : m = n := by
  rcases hn with ⟨-, s, hs, rfl⟩ | ⟨hnp, -⟩
  · rcases hm with ⟨-, s', hs', rfl⟩ | ⟨hnp, -⟩
    · rw [Cell.string.inj (hs.symm.trans hs')]
    · exact absurd hp hnp
  · exact absurd hp hnp

/-- The instruction and the generic read come to the same, the getters of the library being run,
exactly in the states that `ReadsAlike` describes. -/
theorem getLengthCommon_agrees_iff (h : Heap a) (obj val : JSValue a) :
    (getLengthCommon h obj val).runGetter h = (jsGetPropertyInternal h obj).runGetter h ↔
      ReadsAlike h obj val := by
  by_cases hp : jsIsPtr obj
  · by_cases harr : ∃ n, IsPlainArray h obj n
    · obtain ⟨n, harr⟩ := harr
      rw [getLengthCommon_plainArray harr, readChain_plainArray harr, value_agrees_iff]
      constructor
      · intro ht
        refine ⟨fun m hm => ?_, fun m _ hm => absurd hm harr.not_string, fun hn => absurd hp hn⟩
        rw [harr.unique hm]
        exact ht
      · exact fun hr => hr.array n harr
    by_cases hstr : ∃ n, IsStringOf h obj n
    · obtain ⟨n, hstr⟩ := hstr
      rw [getLengthCommon_string hp hstr, jsGetPropertyInternal_string hp hstr, value_agrees_iff]
      constructor
      · intro ht
        refine ⟨fun m hm => absurd ⟨m, hm⟩ harr, fun m _ hm => ?_, fun hn => absurd hp hn⟩
        rw [hstr.unique hp hm]
        exact ht
      · exact fun hr => hr.string n hp hstr
    rw [not_exists] at harr hstr
    rw [getLengthCommon_slow hp harr hstr]
    refine iff_of_true rfl ⟨fun n hn => absurd hn (harr n), fun n _ hn => absurd hn (hstr n), ?_⟩
    exact fun hn => absurd hp hn
  have hback : ReadsAlike h obj val ↔ (jsValueGetSpecialTag val = jsTagStringChar →
      ∃ q, IsPrimitiveProto h obj q ∧ ChainTells h obj q (charLength val)) :=
    ⟨fun hr => hr.temporary hp,
      fun ht => ⟨fun _ hn => absurd hn.1 hp, fun _ hptr => absurd hptr hp, fun _ => ht⟩⟩
  rw [hback, getLengthCommon, if_neg hp]
  by_cases hv : jsValueGetSpecialTag val = jsTagStringChar
  · rw [if_pos hv]
    simp only [hv, true_imp_iff]
    rcases jsGetPropertyInternal_primitive (h := h) hp with ⟨q, hq, he⟩ | ⟨hq, m, he⟩
    · rw [he, value_agrees_iff]
      simp [hq]
    · rw [he]
      simp [hq, Outcome.runGetter]
  · rw [if_neg hv]
    exact iff_of_true rfl fun hv' => absurd hv' hv

/-! ### A number with a stale letter -/

/-- A memory in which all prototypes are one object without properties. -/
def bareHeap : Heap .jsw8 where
  cell _ := .object noObject
  strs := ⟨fun _ => none, 0, fun _ => ⟨none, 0, 0⟩, 0⟩
  classProto _ := 1#64
  classObj _ := 1#64
  cFunctionTable _ := .other
  lengthAtom := 9#64
  classProto_ptr _ := rfl
  rank _ := 0
  rank_proto _ hne := absurd rfl hne

/-- After a letter was read from a string, the number 5 has the length of a letter. -/
theorem five_has_length : ¬(getLengthCommon bareHeap (jsNewShortInt 5)
    (jsValueMakeSpecial jsTagStringChar 0x61)).runGetter bareHeap
      = (jsGetPropertyInternal bareHeap (jsNewShortInt 5)).runGetter bareHeap := by
  have hown (p : JSValue .jsw8) : ownLength bareHeap p = none := by
    rw [ownLength, show (bareHeap.cell p).toObject.props.table = emptyProps from rfl,
      (Represents.empty .jsw8).find_none_iff.2 (by simp)]
    rfl
  have hread (p : JSValue .jsw8) : readChain bareHeap (jsNewShortInt 5) p = .value jsUndefined := by
    rw [readChain, hown]
    exact dif_pos rfl
  have hgen : jsGetPropertyInternal bareHeap (jsNewShortInt 5) = .value jsUndefined := by
    rw [jsGetPropertyInternal, if_pos (by decide), if_pos (Or.inl jsIsInt_jsNewShortInt), hread]
  have hfast : getLengthCommon bareHeap (jsNewShortInt 5)
      (jsValueMakeSpecial jsTagStringChar 0x61) = .value (jsNewShortInt 1) := by
    rw [getLengthCommon, if_neg (by decide), if_pos (by decide)]
    rfl
  rw [hgen, hfast]
  simp [Outcome.runGetter, jsNewShortInt_ne_undefined]

end Qjs.GetLength
