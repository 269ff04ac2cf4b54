import Mathlib.Data.List.GetD
import Qjs.Proofs.GetLength
import Qjs.Proofs.Number
import Qjs.StringMethods

/-!
# Which words the methods of strings give back

A conversion either throws or gives a value and leaves no exception behind (`Converts`), and a
method that hands on each failure as `JS_EXCEPTION` answers with the exception or with a value of
its type (`Answers`). All methods do but `repeat`, which gives back -1, the word of a catch offset,
when the conversion of the count throws (`call_answers_iff`).
-/

namespace Qjs

namespace StringMethods

variable {a : Arch} {U α β : Type} {h h' : StrHeap} {c : Ctx U}

/-! ### Strings that are there -/

def LiveStr (h : StrHeap) : StrVal → Prop
  | .char _ => True
  | .ref id => (h.strings id).isSome

theorem liveStr_char (h : StrHeap) (char : ℕ) : LiveStr h (.char char) := trivial

theorem Grows.refl (h : StrHeap) : Grows h h := fun _ hid => hid

theorem Grows.trans {h'' : StrHeap} (h₁ : Grows h h') (h₂ : Grows h' h'') : Grows h h'' :=
  fun id hid => h₂ id (h₁ id hid)

theorem LiveStr.mono {v : StrVal} (hv : LiveStr h v) (hg : Grows h h') : LiveStr h' v := by
  cases v with
  | char c => trivial
  | ref id => exact hg id hv

theorem Val.Live.mono {v : Val a} (hv : v.Live h) (hg : Grows h h') : v.Live h' := by
  cases v with
  | str id => exact hg id hv
  | word w => trivial
  | float64 d => trivial
  | obj o => trivial

theorem Val.Live.of_str? {v : Val a} {s : StrVal} (hv : v.Live h) (hs : v.str? = some s) :
    LiveStr h s := by
  cases v with
  | word w =>
    rw [Val.str?] at hs
    split_ifs at hs
    rw [← Option.some.inj hs]
    trivial
  | str id =>
    rw [← Option.some.inj hs]
    exact hv
  | float64 d => cases hs
  | obj o => cases hs

theorem grows_of_eq (he : h'.strings = h.strings) : Grows h h' := by
  intro id hid
  rwa [he]

/-- The heap with one more string. -/
theorem grows_update (p : JSString) (n : ℕ) :
    Grows h { h with strings := Function.update h.strings h.next (some p), next := n } ∧
    LiveStr { h with strings := Function.update h.strings h.next (some p), next := n }
      (.ref h.next) := by
  constructor
  · intro id hid
    by_cases hn : id = h.next
    · simp [hn]
    · simpa [hn] using hid
  · simp [LiveStr]

theorem strings_cacheEntry (h : StrHeap) (v : StrVal) (t : PosType) (pos : ℕ) :
    (cacheEntry h v t pos).2.strings = h.strings := by
  unfold cacheEntry
  split <;> rfl

theorem strings_convertPos (h : StrHeap) (v : StrVal) (pos : ℕ) (t : PosType) :
    (jsStringConvertPos h v pos t).2.strings = h.strings := by
  have hscan (buf : List ℕ) (t : PosType) (pos : ℕ) :
      (posScanCached h v buf t pos).2.strings = h.strings := by
    unfold posScanCached
    split_ifs
    · rfl
    · exact strings_cacheEntry h v t pos
  cases t with
  | utf8 =>
    simp only [jsStringConvertPos]
    split_ifs
    · rfl
    · exact hscan _ _ _
  | utf16 =>
    simp only [jsStringConvertPos]
    split_ifs
    · rfl
    · exact hscan _ _ _

theorem strings_stringLen (h : StrHeap) (v : StrVal) : (jsStringLen h v).2.strings = h.strings := by
  cases v with
  | char c => rfl
  | ref id =>
    simp only [jsStringLen]
    split_ifs
    · rfl
    · exact strings_convertPos _ _ _ _

theorem strings_getcp (h : StrHeap) (v : StrVal) (pos : ℕ) (isCodepoint : Bool) :
    (stringGetcp h v pos isCodepoint).2.strings = h.strings := by
  have hpos := strings_convertPos h v pos .utf16
  unfold stringGetcp jsStringUtf16ToUtf8Pos
  generalize jsStringConvertPos h v pos .utf16 = r at *
  dsimp only
  split_ifs <;> exact hpos

theorem jsAllocString_live {mem : ℕ → Bool} {p : JSString} {v : StrVal}
    (hr : jsAllocString a mem h p = some (v, h')) : Grows h h' ∧ LiveStr h' v := by
  unfold jsAllocString at hr
  split_ifs at hr
  obtain ⟨rfl, rfl⟩ := Prod.mk.inj (Option.some.inj hr)
  exact grows_update p _

theorem jsSubStringUtf8_live {mem : ℕ → Bool} {v v' : StrVal} {i j : ℕ}
    (h0 : LiveStr h jsAtomEmpty) (hr : jsSubStringUtf8 a mem h v i j = some (v', h')) :
    Grows h h' ∧ LiveStr h' v' := by
  unfold jsSubStringUtf8 at hr
  dsimp only at hr
  split_ifs at hr
  · obtain ⟨rfl, rfl⟩ := Prod.mk.inj (Option.some.inj hr)
    exact ⟨.refl _, h0⟩
  · obtain ⟨rfl, rfl⟩ := Prod.mk.inj (Option.some.inj hr)
    exact ⟨.refl _, trivial⟩
  all_goals exact jsAllocString_live hr

theorem jsSubString_live {mem : ℕ → Bool} {v v' : StrVal} {i j : ℕ}
    (h0 : LiveStr h jsAtomEmpty) (hr : jsSubString a mem h v i j = some (v', h')) :
    Grows h h' ∧ LiveStr h' v' := by
  simp only [jsSubString] at hr
  split_ifs at hr
  · obtain ⟨rfl, rfl⟩ := Prod.mk.inj (Option.some.inj hr)
    exact ⟨.refl _, h0⟩
  · have h₁ := grows_of_eq (strings_convertPos h v i .utf16)
    have h₂ := h₁.trans (grows_of_eq (strings_convertPos _ v j .utf16))
    obtain ⟨hg, hv⟩ := jsSubStringUtf8_live (h0.mono h₂) hr
    exact ⟨h₂.trans hg, hv⟩

theorem jsByteArrayToString_live {arr : List ℕ} {len : ℕ} {isAscii : Bool} {v : StrVal}
    (h0 : LiveStr h jsAtomEmpty) (hr : jsByteArrayToString h arr len isAscii = (v, h')) :
    Grows h h' ∧ LiveStr h' v := by
  unfold jsByteArrayToString at hr
  split_ifs at hr
  · obtain ⟨rfl, rfl⟩ := Prod.mk.inj hr
    exact ⟨.refl _, h0⟩
  · obtain ⟨rfl, rfl⟩ := Prod.mk.inj hr
    exact ⟨.refl _, trivial⟩
  · obtain ⟨rfl, rfl⟩ := Prod.mk.inj hr
    exact grows_update _ _

/-! ### Runs -/

/-- Every end of `m` from `c` is one of `P`. -/
def Runs (m : M U α) (c : Ctx U) (P : α → Ctx U → Prop) : Prop := ∀ r c', m c = some (r, c')
    → P r c'

/-- The state between the parts of a method. -/
structure Ready (c : Ctx U) : Prop where
  atoms : ∀ k, LiveStr c.heap (jsGetAtom k)
  noException : c.hasException = false

theorem Ready.mono {c' : Ctx U} (hc : Ready c) (hg : Grows c.heap c'.heap)
    (he : c'.hasException = false) : Ready c' := ⟨fun k => (hc.atoms k).mono hg, he⟩

theorem Ready.empty (hc : Ready c) : LiveStr c.heap jsAtomEmpty := hc.atoms .empty

/-- A value of which `Q` holds, or an exception. -/
def Converts (m : M U (Option α)) (c : Ctx U) (Q : StrHeap → α → Prop) : Prop :=
  Runs m c fun r c' => Grows c.heap c'.heap ∧ c'.hasException = r.isNone ∧ ∀ x ∈ r, Q c'.heap x

/-- The exception when there is one, and else a value of which `T` holds. -/
def Answers (m : M U (Val a)) (c : Ctx U) (T : StrHeap → Val a → Prop) : Prop :=
  Runs m c fun r c' =>
    (c'.hasException = true → r = jsException) ∧ (c'.hasException = false → T c'.heap r)

theorem orReturn_eq_some {m : M U (Option α)} {w : β} {k : α → M U β} {r : β × Ctx U}
    (hr : orReturn m w k c = some r) :
    (∃ c', m c = some (none, c') ∧ r = (w, c')) ∨
      ∃ x c', m c = some (some x, c') ∧ k x c' = some r := by
  obtain ⟨⟨r₁, c₁⟩, hm, hk⟩ := Option.bind_eq_some_iff.1 hr
  cases r₁ with
  | none => exact .inl ⟨c₁, hm, (Option.some.inj hk).symm⟩
  | some x => exact .inr ⟨x, c₁, hm, hk⟩

section Rules

variable {m : M U (Option α)} {Q : StrHeap → α → Prop}

theorem Converts.orReturn {k : α → M U (Option β)} {R : StrHeap → β → Prop} (hc : Ready c)
    (hm : Converts m c Q)
    (hk : ∀ x c', Ready c' → Grows c.heap c'.heap → Q c'.heap x → Converts (k x) c' R) :
    Converts (orReturn m none k) c R := by
  intro r c'' hr
  rcases orReturn_eq_some hr with ⟨c', hmc, heq⟩ | ⟨x, c', hmc, hkc⟩
  · obtain ⟨rfl, rfl⟩ := Prod.mk.inj heq
    obtain ⟨hg, he, -⟩ := hm _ _ hmc
    exact ⟨hg, he, by simp⟩
  · obtain ⟨hg, he, hq⟩ := hm _ _ hmc
    obtain ⟨hg', he', hq'⟩ := hk x c' (hc.mono hg he) hg (hq x rfl) _ _ hkc
    exact ⟨hg.trans hg', he', hq'⟩

theorem Converts.orReturn_exception {k : α → M U (Val a)} {T : StrHeap → Val a → Prop}
    (hc : Ready c) (hm : Converts m c Q)
    (hk : ∀ x c', Ready c' → Grows c.heap c'.heap → Q c'.heap x → Answers (k x) c' T) :
    Answers (StringMethods.orReturn m jsException k) c T := by
  intro r c'' hr
  rcases orReturn_eq_some hr with ⟨c', hmc, heq⟩ | ⟨x, c', hmc, hkc⟩
  · obtain ⟨rfl, rfl⟩ := Prod.mk.inj heq
    obtain ⟨-, he, -⟩ := hm _ _ hmc
    exact ⟨fun _ => rfl, fun hf => absurd (he.symm.trans hf) (by simp)⟩
  · obtain ⟨hg, he, hq⟩ := hm _ _ hmc
    exact hk x c' (hc.mono hg he) hg (hq x rfl) _ _ hkc

theorem Converts.orReturn_of_some {w : Val a} {k : α → M U (Val a)}
    {T : StrHeap → Val a → Prop} (hc : Ready c) (hm : Converts m c Q)
    (hsome : ¬ ∃ c', m c = some (none, c'))
    (hk : ∀ x c', Ready c' → Grows c.heap c'.heap → Q c'.heap x → Answers (k x) c' T) :
    Answers (StringMethods.orReturn m w k) c T := by
  intro r c'' hr
  rcases orReturn_eq_some hr with ⟨c', hmc, -⟩ | ⟨x, c', hmc, hkc⟩
  · exact absurd ⟨c', hmc⟩ hsome
  · obtain ⟨hg, he, hq⟩ := hm _ _ hmc
    exact hk x c' (hc.mono hg he) hg (hq x rfl) _ _ hkc

theorem ok_converts {x : α} (hc : Ready c) (hx : Q c.heap x) : Converts (ok x) c Q := by
  intro r c' hr
  obtain ⟨rfl, rfl⟩ := Prod.mk.inj (Option.some.inj hr)
  refine ⟨.refl _, hc.noException, ?_⟩
  intro y hy
  rwa [← Option.some.inj hy]

theorem throwing_converts : Converts (throwing (α := α)) c Q := by
  intro r c' hr
  obtain ⟨rfl, rfl⟩ := Prod.mk.inj (Option.some.inj hr)
  exact ⟨.refl _, rfl, by simp⟩

theorem returns_answers {T : StrHeap → Val a → Prop} {v : Val a} (hc : Ready c)
    (hv : T c.heap v) : Answers (returns v) c T := by
  intro r c' hr
  obtain ⟨rfl, rfl⟩ := Prod.mk.inj (Option.some.inj hr)
  exact ⟨fun he => absurd (hc.noException.symm.trans he) (by simp), fun _ => hv⟩

theorem throws_answers {T : StrHeap → Val a → Prop} : Answers (throws (a := a)) c T := by
  intro r c' hr
  obtain ⟨rfl, rfl⟩ := Prod.mk.inj (Option.some.inj hr)
  exact ⟨fun _ => rfl, fun he => absurd he (by simp [Ctx.throw])⟩

theorem enter_converts {f : StrHeap → U → Option (Option α × StrHeap × U)} (hc : Ready c)
    (hf : ∀ r h' u', f c.heap c.user = some (r, h', u') → Grows c.heap h' ∧ ∀ x ∈ r, Q h' x) :
    Converts (enter f) c Q := by
  intro r c' hr
  obtain ⟨⟨r₁, h₁, u₁⟩, hcall, heq⟩ := Option.map_eq_some_iff.1 hr
  obtain ⟨rfl, rfl⟩ := Prod.mk.inj heq
  obtain ⟨hg, hq⟩ := hf _ _ _ hcall
  refine ⟨hg, ?_, hq⟩
  rw [hc.noException]
  exact Bool.false_or _

theorem allocating_converts {f : StrHeap → Option (StrVal × StrHeap)} (hc : Ready c)
    (hf : ∀ v h', f c.heap = some (v, h') → Grows c.heap h' ∧ LiveStr h' v) :
    Converts (allocating f) c LiveStr := by
  intro r c' hr
  unfold allocating at hr
  split at hr
  · exact throwing_converts _ _ hr
  · next v h' hfc =>
    obtain ⟨rfl, rfl⟩ := Prod.mk.inj (Option.some.inj hr)
    obtain ⟨hg, hv⟩ := hf v h' hfc
    refine ⟨hg, hc.noException, ?_⟩
    intro x hx
    rwa [← Option.some.inj hx]

end Rules

/-! ### Conversions -/

section Conversions

variable {eng : Engine a U} {val : Val a} {fuel : ℕ}

theorem toPrimitiveLoop_converts {hint : ℕ} (hval : val.Live c.heap) :
    ∀ (is : List ℕ) {c : Ctx U}, Ready c →
      Converts (toPrimitiveLoop eng val hint is) c fun h v => v.Live h
  | [], c, _ => throwing_converts
  | i :: is, c, hc => by
    refine (enter_converts hc fun _ _ _ hcall => eng.getProperty_live hcall).orReturn hc ?_
    intro method c₁ hc₁ _ _
    unfold Converts Runs
    dsimp only
    split_ifs
    · refine (enter_converts hc₁ fun _ _ _ hcall => eng.call_live hcall).orReturn hc₁ ?_
      intro ret c₂ hc₂ _ hret
      split_ifs
      · exact toPrimitiveLoop_converts hval is hc₂
      · exact ok_converts hc₂ hret
    · exact throwing_converts
    · exact toPrimitiveLoop_converts hval is hc₁

theorem jsToPrimitive_converts {hint : ℕ} (hc : Ready c) (hval : val.Live c.heap) :
    Converts (jsToPrimitive eng val hint) c fun h v => v.Live h := by
  unfold jsToPrimitive
  split_ifs
  · exact ok_converts hc hval
  · exact toPrimitiveLoop_converts hval _ hc

theorem jsNewString_converts {buf : List ℕ} (hc : Ready c) :
    Converts (jsNewString eng buf) c LiveStr := by
  unfold jsNewString Converts Runs
  dsimp only
  split_ifs
  · exact ok_converts hc hc.empty
  · exact ok_converts hc trivial
  · exact allocating_converts hc fun _ _ => jsAllocString_live

theorem jsDtoa2_converts {d : Double} (hc : Ready c) : Converts (jsDtoa2 eng d) c LiveStr := by
  unfold jsDtoa2 Converts Runs
  dsimp only
  split_ifs
  · exact allocating_converts hc fun _ _ hr => jsByteArrayToString_live hc.empty
      (Option.some.inj hr)
  · exact throwing_converts

theorem jsToString_converts : ∀ {fuel : ℕ} {val : Val a} {c : Ctx U}, Ready c → val.Live c.heap →
    Converts (jsToString eng fuel val) c LiveStr
  | 0, val, c, _, _ => by
    intro r c' hr
    rw [jsToString] at hr
    cases hr
  | fuel + 1, .float64 d, c, hc, _ => jsDtoa2_converts hc
  | fuel + 1, .str id, c, hc, hval => ok_converts hc hval
  | fuel + 1, .obj o, c, hc, hval =>
    (jsToPrimitive_converts hc hval).orReturn hc fun _ _ hc' _ hv => jsToString_converts hc' hv
  | fuel + 1, .word w, c, hc, hval => by
    rw [jsToString]
    split_ifs
    · exact jsNewString_converts hc
    · exact jsDtoa2_converts hc
    · exact ok_converts hc (hc.atoms .null)
    · exact ok_converts hc (hc.atoms .undefined)
    · exact ok_converts hc (hc.atoms _)
    · exact ok_converts hc (hc.atoms _)
    · exact ok_converts hc trivial
    · exact (jsToPrimitive_converts hc hval).orReturn hc fun _ _ hc' _ hv =>
        jsToString_converts hc' hv
    · exact jsNewString_converts hc

theorem jsToStringCheckObject_converts (hc : Ready c) (hval : val.Live c.heap) :
    Converts (jsToStringCheckObject eng fuel val) c LiveStr := by
  unfold jsToStringCheckObject
  split_ifs
  · exact throwing_converts
  · exact jsToString_converts hc hval

theorem atod_converts {v : StrVal} (hc : Ready c) : Converts (atod eng v) c fun _ _ => True := by
  unfold atod Converts Runs
  dsimp only
  split
  · exact throwing_converts (Q := fun _ _ => True)
  · exact ok_converts (Q := fun _ _ => True) hc trivial

theorem jsToNumber_converts : ∀ {fuel : ℕ} {val : Val a} {c : Ctx U}, Ready c → val.Live c.heap →
    Converts (jsToNumber eng fuel val) c fun _ _ => True
  | 0, val, c, _, _ => by
    intro r c' hr
    rw [jsToNumber] at hr
    cases hr
  | fuel + 1, .float64 d, c, hc, _ => ok_converts hc trivial
  | fuel + 1, .str id, c, hc, _ => atod_converts hc
  | fuel + 1, .obj o, c, hc, hval =>
    (jsToPrimitive_converts hc hval).orReturn hc fun _ _ hc' _ hv => jsToNumber_converts hc' hv
  | fuel + 1, .word w, c, hc, _ => by
    rw [jsToNumber]
    split_ifs
    · exact ok_converts hc trivial
    · exact ok_converts hc trivial
    · exact ok_converts hc trivial
    · exact atod_converts hc
    · exact ok_converts hc trivial

theorem jsToInt32Internal_converts {satFlag : Bool} (hc : Ready c) (hval : val.Live c.heap) :
    Converts (jsToInt32Internal eng fuel satFlag val) c fun _ _ => True := by
  have hnumber : Converts (handleNumber eng fuel satFlag val) c fun _ _ => True :=
    (jsToNumber_converts hc hval).orReturn hc fun _ _ hc' _ _ => ok_converts hc' trivial
  cases val with
  | word w =>
    rw [jsToInt32Internal]
    split_ifs
    · exact ok_converts hc trivial
    · exact ok_converts hc trivial
    · exact ok_converts hc trivial
    · exact hnumber
  | float64 d => exact hnumber
  | str id => exact hnumber
  | obj o => exact hnumber

theorem jsToInt32Clamp_converts {lo hi minOffset : ℤ} (hc : Ready c) (hval : val.Live c.heap) :
    Converts (jsToInt32Clamp eng fuel val lo hi minOffset) c fun _ _ => True := by
  refine (jsToInt32Internal_converts hc hval).orReturn hc ?_
  intro n c' hc' _ _
  split_ifs <;> exact ok_converts hc' trivial

end Conversions

/-! ### Types -/

def IsString (h : StrHeap) (v : Val a) : Prop := jsIsString v = true ∧ v.Live h

def IsNumber : Val a → Prop
  | .word w => jsIsInt w = true ∨ jsIsShortFloat w = true
  | .float64 _ => True
  | _ => False

/-- The documented type of a method's value. -/
def Method.HasType (m : Method) (h : StrHeap) (v : Val a) : Prop :=
  match m with
  | .charCodeAt => IsNumber v
  | .codePointAt => IsNumber v ∨ v = .word jsUndefined
  | .indexOf => IsNumber v
  | .lastIndexOf => IsNumber v
  | _ => IsString h v

theorem special_toNat_mod {tag : ℕ} (ht : tag < 32) (n : ℕ) :
    (jsValueMakeSpecial tag n : JSValue a).toNat % 32 = tag := by
  have hdvd : 32 ∣ 2 ^ a.bits := pow_dvd_pow 2 (show 5 ≤ a.bits by cases a <;> decide)
  rw [jsValueMakeSpecial, BitVec.toNat_ofNat, Nat.mod_mod_of_dvd _ hdvd, Nat.add_mul_mod_self_left,
    Nat.mod_eq_of_lt ht]

theorem isString_ofStr {s : StrVal} (hs : LiveStr h s) : IsString h (Val.ofStr (a := a) s) := by
  cases s with
  | ref id => exact ⟨rfl, hs⟩
  | char c =>
    have htag : jsValueGetSpecialTag (jsValueMakeSpecial jsTagStringChar c : JSValue a)
        = jsTagStringChar := special_toNat_mod (by decide) c
    refine ⟨?_, trivial⟩
    rw [jsIsString, Val.ofStr, Val.str?, if_pos htag]
    rfl

theorem live_ofStr {s : StrVal} (hs : LiveStr h s) : (Val.ofStr (a := a) s).Live h :=
  (isString_ofStr hs).2

theorem isNumber_newShortInt (z : ℤ) : IsNumber (.word (a := a) (jsNewShortInt z)) :=
  .inl GetLength.jsIsInt_jsNewShortInt

theorem isNumber_of_denote {w : JSValue a} {d : Double} (hd : (Boxed.word w).denote = .number d) :
    IsNumber (.word w) := by
  rw [Boxed.denote] at hd
  split_ifs at hd with hint hfloat
  · exact .inl hint
  · exact .inr hfloat

/-! ### Buffers -/

def BufLive (h : StrHeap) (s : StringBuffer) : Prop :=
  match s.val with
  | .str v => LiveStr h v
  | _ => True

theorem BufLive.mono {s : StringBuffer} (hs : BufLive h s) (hg : Grows h h') : BufLive h' s := by
  unfold BufLive at *
  generalize s.val = b at *
  cases b with
  | exception => trivial
  | str v => exact LiveStr.mono hs hg
  | bytes arr => trivial

theorem bufLive_concatStr {mem : ℕ → Bool} {s : StringBuffer} {v : StrVal} (hs : BufLive h s)
    (hv : LiveStr h v) : BufLive h (stringBufferConcatStr a mem h s v) := by
  have happend (arr : List ℕ) (len1 : ℕ) (isAscii : Bool) (p : JSString) :
      BufLive h (appendBytes arr len1 isAscii p) := by
    unfold appendBytes
    dsimp only
    split_ifs <;> trivial
  unfold stringBufferConcatStr
  dsimp only
  split
  · exact hs
  · split_ifs
    · exact hs
    · exact hv
    · trivial
    · split
      · trivial
      · exact happend _ _ _ _
  · split_ifs
    · exact hs
    · trivial
    · split
      · trivial
      · exact happend _ _ _ _
    · exact happend _ _ _ _

/-- A buffer between two steps: it has failed, and the exception is there, or it holds a string
that is being made. -/
def Held (s : StringBuffer) (c : Ctx U) : Prop :=
  (s.val = .exception ∧ c.hasException = true) ∨ (s.val ≠ .exception ∧ BufLive c.heap s ∧ Ready c)

section Buffers

variable {eng : Engine a U} {s : StringBuffer} {fuel : ℕ}

theorem held_empty (hc : Ready c) : Held emptyBuffer c :=
  .inr ⟨by simp [emptyBuffer], hc.empty, hc⟩

theorem bufferConcatStr_held {v : StrVal} {r : Bool × StringBuffer} {c' : Ctx U} (hs : Held s c)
    (hv : LiveStr c.heap v) (hr : bufferConcatStr eng s v c = some (r, c')) :
    Held r.2 c' ∧ c'.heap = c.heap ∧ (r.1 = false → Ready c') := by
  unfold bufferConcatStr at hr
  dsimp only at hr
  split_ifs at hr with hval
  · obtain ⟨rfl, rfl⟩ := Prod.mk.inj (Option.some.inj hr)
    exact ⟨.inl ⟨hval, rfl⟩, rfl, by simp⟩
  · obtain ⟨rfl, rfl⟩ := Prod.mk.inj (Option.some.inj hr)
    rcases hs with ⟨hexc, -⟩ | ⟨-, hlive, hc⟩
    · exact absurd (by rw [stringBufferConcatStr, hexc]; exact hexc) hval
    · exact ⟨.inr ⟨hval, bufLive_concatStr hlive hv, hc⟩, rfl, fun _ => hc⟩

theorem bufferConcat_held {val : Val a} {r : Bool × StringBuffer} {c' : Ctx U} (hs : Held s c)
    (hc : Ready c) (hval : val.Live c.heap)
    (hr : bufferConcat eng fuel s val c = some (r, c')) :
    Held r.2 c' ∧ Grows c.heap c'.heap ∧ (r.1 = false → Ready c') := by
  rcases hs with ⟨-, hexc⟩ | ⟨hne, hlive, -⟩
  · exact absurd (hexc.symm.trans hc.noException) (by simp)
  rcases orReturn_eq_some hr with ⟨c₁, hm, heq⟩ | ⟨v, c₁, hm, hk⟩
  · obtain ⟨rfl, rfl⟩ := Prod.mk.inj heq
    obtain ⟨hg, he, -⟩ := jsToString_converts hc hval _ _ hm
    exact ⟨.inl ⟨rfl, he⟩, hg, by simp⟩
  · obtain ⟨hg, he, hv⟩ := jsToString_converts hc hval _ _ hm
    have hheld : Held s c₁ := .inr ⟨hne, hlive.mono hg, hc.mono hg he⟩
    obtain ⟨hheld', hheap, hready⟩ := bufferConcatStr_held hheld (hv v rfl) hk
    refine ⟨hheld', ?_, hready⟩
    rwa [hheap]

theorem bufferPop_answers (hs : Held s c) : Answers (bufferPop (a := a) s) c IsString := by
  intro r c' hr
  unfold bufferPop stringBufferPop at hr
  rcases hs with ⟨hval, hexc⟩ | ⟨hval, hlive, hc⟩
  · rw [hval] at hr
    obtain ⟨rfl, rfl⟩ := Prod.mk.inj (Option.some.inj hr)
    exact ⟨fun _ => rfl, fun he => absurd (he.symm.trans hexc) (by simp)⟩
  · unfold BufLive at hlive
    rcases hv : s.val with _ | v | arr
    · exact absurd hv hval
    · rw [hv] at hr hlive
      obtain ⟨rfl, rfl⟩ := Prod.mk.inj (Option.some.inj hr)
      exact ⟨fun he => absurd (he.symm.trans hc.noException) (by simp),
        fun _ => isString_ofStr hlive⟩
    · rw [hv] at hr
      obtain ⟨rfl, rfl⟩ := Prod.mk.inj (Option.some.inj hr)
      exact ⟨fun he => absurd (he.symm.trans hc.noException) (by simp),
        fun _ => isString_ofStr (jsByteArrayToString_live hc.empty rfl).2⟩

end Buffers

/-! ### Methods -/

section Methods

variable {eng : Engine a U} {fuel : ℕ} {this : Val a} {argv : List (Val a)}
  {T : StrHeap → Val a → Prop}

theorem stringLen_answers {v : StrVal} {k : ℕ → M U (Val a)} (hc : Ready c)
    (hk : ∀ n c', Ready c' → Grows c.heap c'.heap → Answers (k n) c' T) :
    Answers (stringLen v k) c T := by
  have hg := grows_of_eq (strings_stringLen c.heap v)
  have hready : Ready { c with heap := (jsStringLen c.heap v).2 } := hc.mono hg hc.noException
  exact hk _ _ hready hg

theorem subString_answers {v : StrVal} {start end' : ℤ} (hc : Ready c) :
    Answers (subString eng v start end') c IsString :=
  (allocating_converts hc fun _ _ => jsSubString_live hc.empty).orReturn_exception hc
    fun _ _ hc' _ hv => returns_answers hc' (isString_ofStr hv)

theorem newFloat64_answers {d : Double} (hc : Ready c) :
    Answers (newFloat64 eng d) c fun _ v => IsNumber v := by
  have hden := denote_jsNewFloat64 (a := a) d
  unfold newFloat64 Answers Runs
  dsimp only
  split
  · next w hw =>
    rw [hw] at hden
    exact returns_answers (T := fun _ v => IsNumber v) hc (isNumber_of_denote hden)
  · exact returns_answers (T := fun _ v => IsNumber v) hc trivial
  · split_ifs
    · exact returns_answers (T := fun _ v => IsNumber v) hc trivial
    · exact throws_answers (T := fun _ v => IsNumber v)

theorem arg_live (hargs : ∀ v ∈ argv, v.Live h) (i : ℕ) : (arg argv i).Live h := by
  unfold arg
  rcases lt_or_ge i argv.length with hi | hi
  · rw [List.getD_eq_getElem _ _ hi]
    exact hargs _ (List.getElem_mem hi)
  · rw [List.getD_eq_default _ _ hi]
    trivial

theorem jsStringSlice_answers (hc : Ready c) (hthis : this.Live c.heap)
    (hargs : ∀ v ∈ argv, v.Live c.heap) :
    Answers (jsStringSlice eng fuel this argv) c IsString := by
  refine (jsToStringCheckObject_converts hc hthis).orReturn_exception hc ?_
  intro this c₁ hc₁ hg₁ _
  refine stringLen_answers hc₁ ?_
  intro len c₂ hc₂ hg₂
  have hg₂ := hg₁.trans hg₂
  refine (jsToInt32Clamp_converts hc₂ ((arg_live hargs 0).mono hg₂)).orReturn_exception hc₂ ?_
  intro start c₃ hc₃ hg₃ _
  split_ifs
  · exact subString_answers hc₃
  · refine (jsToInt32Clamp_converts hc₃
      ((arg_live hargs 1).mono (hg₂.trans hg₃))).orReturn_exception hc₃ ?_
    intro end' c₄ hc₄ _ _
    exact subString_answers hc₄

theorem jsStringSubstring_answers (hc : Ready c) (hthis : this.Live c.heap)
    (hargs : ∀ v ∈ argv, v.Live c.heap) :
    Answers (jsStringSubstring eng fuel this argv) c IsString := by
  refine (jsToStringCheckObject_converts hc hthis).orReturn_exception hc ?_
  intro this c₁ hc₁ hg₁ _
  refine stringLen_answers hc₁ ?_
  intro len c₂ hc₂ hg₂
  have hg₂ := hg₁.trans hg₂
  refine (jsToInt32Clamp_converts hc₂ ((arg_live hargs 0).mono hg₂)).orReturn_exception hc₂ ?_
  intro start c₃ hc₃ hg₃ _
  split_ifs
  · exact subString_answers hc₃
  · exact subString_answers hc₃
  · refine (jsToInt32Clamp_converts hc₃
      ((arg_live hargs 1).mono (hg₂.trans hg₃))).orReturn_exception hc₃ ?_
    intro b c₄ hc₄ _ _
    split_ifs <;> exact subString_answers hc₄

theorem retUndef_answers (magic : CharMagic) (hc : Ready c) :
    Answers (retUndef eng magic) c fun h v =>
      match magic with
      | .charAt => IsString h v
      | .charCodeAt => IsNumber v
      | .codePointAt => IsNumber v ∨ v = .word jsUndefined := by
  cases magic with
  | charAt => exact returns_answers hc (isString_ofStr hc.empty)
  | charCodeAt => exact newFloat64_answers hc
  | codePointAt => exact returns_answers hc (.inr rfl)

theorem jsStringCharAt_answers (magic : CharMagic) (hc : Ready c) (hthis : this.Live c.heap)
    (hargs : ∀ v ∈ argv, v.Live c.heap) :
    Answers (jsStringCharAt eng fuel this argv magic) c fun h v =>
      match magic with
      | .charAt => IsString h v
      | .charCodeAt => IsNumber v
      | .codePointAt => IsNumber v ∨ v = .word jsUndefined := by
  refine (jsToStringCheckObject_converts hc hthis).orReturn_exception hc ?_
  intro this c₁ hc₁ hg₁ _
  refine (jsToInt32Internal_converts hc₁
    ((arg_live hargs 0).mono hg₁)).orReturn_exception hc₁ ?_
  intro idx c₂ hc₂ _ _
  unfold Answers Runs
  dsimp only
  split_ifs
  · exact retUndef_answers magic hc₂
  · have hready : Ready { c₂ with
        heap := (stringGetcp c₂.heap this idx.toNat (decide (magic = .codePointAt))).2 } :=
      hc₂.mono (grows_of_eq (strings_getcp _ _ _ _)) hc₂.noException
    generalize stringGetcp c₂.heap this idx.toNat (decide (magic = .codePointAt)) = r at hready ⊢
    obtain ⟨_ | char, h'⟩ := r
    · exact retUndef_answers magic hready
    · cases magic with
      | charAt => exact returns_answers hready (isString_ofStr (liveStr_char _ _))
      | charCodeAt =>
        exact returns_answers (T := fun _ v => IsNumber v) hready (isNumber_newShortInt _)
      | codePointAt =>
        exact returns_answers (T := fun _ v => IsNumber v ∨ v = .word jsUndefined) hready
          (.inl (isNumber_newShortInt _))

theorem fromCharCodeLoop_answers {isFromCodePoint : Bool} :
    ∀ {argv : List (Val a)} {s : StringBuffer} {c : Ctx U}, Held s c → Ready c →
      (∀ v ∈ argv, v.Live c.heap) →
      Answers (fromCharCodeLoop eng fuel isFromCodePoint s argv) c IsString
  | [], _, _, hs, _, _ => bufferPop_answers hs
  | v :: vs, s, c, hs, hc, hargs => by
    have hval : v.Live c.heap := hargs v (by simp)
    refine (jsToInt32Internal_converts hc hval).orReturn_exception hc ?_
    intro n c₁ hc₁ hg₁ _
    have hs₁ : Held s c₁ := by
      rcases hs with ⟨-, hexc⟩ | ⟨hne, hlive, -⟩
      · exact absurd (hexc.symm.trans hc.noException) (by simp)
      · exact .inr ⟨hne, hlive.mono hg₁, hc₁⟩
    unfold Answers Runs
    dsimp only
    split_ifs
    · exact throws_answers
    all_goals
      intro r c'' hr
      obtain ⟨⟨⟨failed, s'⟩, c₂⟩, hput, hk⟩ := Option.bind_eq_some_iff.1 hr
      obtain ⟨hheld, hheap, hready⟩ := bufferConcatStr_held hs₁ (liveStr_char _ _) hput
      cases failed with
      | true => exact bufferPop_answers hheld _ _ hk
      | false =>
        refine fromCharCodeLoop_answers hheld (hready rfl) ?_ _ _ hk
        intro x hx
        rw [hheap]
        exact (hargs x (List.mem_cons_of_mem _ hx)).mono hg₁

theorem jsStringFromCharCode_answers {isFromCodePoint : Bool} (hc : Ready c)
    (hargs : ∀ v ∈ argv, v.Live c.heap) :
    Answers (jsStringFromCharCode eng fuel argv isFromCodePoint) c IsString :=
  fromCharCodeLoop_answers (held_empty hc) hc hargs

theorem concatLoop_answers : ∀ {argv : List (Val a)} {s : StringBuffer} {c : Ctx U}, Held s c →
    Ready c → (∀ v ∈ argv, v.Live c.heap) → Answers (concatLoop eng fuel s argv) c IsString
  | [], _, _, hs, _, _ => bufferPop_answers hs
  | v :: vs, s, c, hs, hc, hargs => by
    intro r c'' hr
    obtain ⟨⟨⟨failed, s'⟩, c₁⟩, hput, hk⟩ := Option.bind_eq_some_iff.1 hr
    obtain ⟨hheld, hg, hready⟩ := bufferConcat_held hs hc (hargs v (by simp)) hput
    cases failed with
    | true => exact bufferPop_answers hheld _ _ hk
    | false =>
      exact concatLoop_answers hheld (hready rfl)
        (fun x hx => (hargs x (List.mem_cons_of_mem _ hx)).mono hg) _ _ hk

theorem jsStringConcat_answers (hc : Ready c) (hthis : this.Live c.heap)
    (hargs : ∀ v ∈ argv, v.Live c.heap) :
    Answers (jsStringConcat eng fuel this argv) c IsString := by
  refine (jsToStringCheckObject_converts hc hthis).orReturn_exception hc ?_
  intro r c₁ hc₁ hg₁ hr
  refine concatLoop_answers (held_empty hc₁) hc₁ ?_
  intro v hv
  rcases List.mem_cons.1 hv with rfl | hv
  · exact live_ofStr hr
  · exact (hargs v hv).mono hg₁

theorem indexFrom_answers {str needle : StrVal} {len vLen : ℕ} {start stop inc : ℤ}
    (hc : Ready c) :
    Answers (indexFrom (a := a) str needle len vLen start stop inc) c fun _ v => IsNumber v := by
  intro r c' hr
  have hend : c'.hasException = false ∧ IsNumber r := by
    unfold indexFrom at hr
    split_ifs at hr
    · obtain ⟨rfl, rfl⟩ := Prod.mk.inj (Option.some.inj hr)
      exact ⟨hc.noException, isNumber_newShortInt _⟩
    · obtain ⟨rfl, rfl⟩ := Prod.mk.inj (Option.some.inj hr)
      exact ⟨hc.noException, isNumber_newShortInt _⟩
  exact ⟨fun he => absurd (hend.1.symm.trans he) (by simp), fun _ => hend.2⟩

theorem jsStringIndexOf_answers {lastIndexOf : Bool} (hc : Ready c) (hthis : this.Live c.heap)
    (hargs : ∀ v ∈ argv, v.Live c.heap) :
    Answers (jsStringIndexOf eng fuel this argv lastIndexOf) c fun _ v => IsNumber v := by
  refine (jsToStringCheckObject_converts hc hthis).orReturn_exception hc ?_
  intro str c₁ hc₁ hg₁ _
  refine (jsToString_converts hc₁ ((arg_live hargs 0).mono hg₁)).orReturn_exception hc₁ ?_
  intro needle c₂ hc₂ hg₂ _
  refine stringLen_answers hc₂ ?_
  intro len c₃ hc₃ hg₃
  refine stringLen_answers hc₃ ?_
  intro vLen c₄ hc₄ hg₄
  have harg := (arg_live hargs 1).mono (((hg₁.trans hg₂).trans hg₃).trans hg₄)
  dsimp only
  split_ifs
  · refine (jsToNumber_converts hc₄ harg).orReturn_exception hc₄ ?_
    intro d c₅ hc₅ _ _
    exact indexFrom_answers hc₅
  · exact indexFrom_answers hc₄
  · refine (jsToInt32Clamp_converts hc₄ harg).orReturn_exception hc₄ ?_
    intro pos c₅ hc₅ _ _
    exact indexFrom_answers hc₅
  · exact indexFrom_answers hc₄

theorem strings_trimStartLoop {str : StrVal} : ∀ (n i : ℕ) (h : StrHeap),
    (trimStartLoop str n i h).2.strings = h.strings
  | 0, _, _ => rfl
  | n + 1, i, h => by
    simp only [trimStartLoop]
    split_ifs
    · rw [strings_trimStartLoop n, strings_getcp]
    · exact strings_getcp _ _ _ _

theorem strings_trimEndLoop {str : StrVal} {i : ℕ} : ∀ (n : ℕ) (h : StrHeap),
    (trimEndLoop str i n h).2.strings = h.strings
  | 0, _ => rfl
  | n + 1, h => by
    simp only [trimEndLoop]
    split_ifs
    · rw [strings_trimEndLoop n, strings_getcp]
    · exact strings_getcp _ _ _ _

theorem jsStringTrim_answers {magic : ℕ} (hc : Ready c) (hthis : this.Live c.heap) :
    Answers (jsStringTrim eng fuel this magic) c IsString := by
  refine (jsToStringCheckObject_converts hc hthis).orReturn_exception hc ?_
  intro str c₁ hc₁ _ _
  refine stringLen_answers hc₁ ?_
  intro len c₂ hc₂ _
  have hready {h' : StrHeap} (he : h'.strings = c₂.heap.strings) : Ready { c₂ with heap := h' } :=
    hc₂.mono (grows_of_eq he) hc₂.noException
  unfold Answers Runs
  dsimp only
  split_ifs
  · exact subString_answers (hready (by rw [strings_trimEndLoop, strings_trimStartLoop]))
  · exact subString_answers (hready (strings_trimStartLoop _ _ _))
  · exact subString_answers (hready (strings_trimEndLoop _ _))
  · exact subString_answers (hready rfl)

theorem repeatLoop_answers {v : StrVal} : ∀ {n : ℕ} {s : StringBuffer} {c : Ctx U}, Held s c →
    LiveStr c.heap v → Answers (repeatLoop eng v n s) c IsString
  | 0, _, _, hs, _ => bufferPop_answers hs
  | n + 1, s, c, hs, hv => by
    intro r c'' hr
    obtain ⟨⟨⟨failed, s'⟩, c₁⟩, hput, hk⟩ := Option.bind_eq_some_iff.1 hr
    obtain ⟨hheld, hheap, -⟩ := bufferConcatStr_held hs hv hput
    exact repeatLoop_answers hheld (by rwa [hheap]) _ _ hk

/-- What `repeat` does once it has the count. -/
theorem jsStringRepeat_answers (hc : Ready c) (hthis : this.Live c.heap)
    (hargs : ∀ v ∈ argv, v.Live c.heap)
    (hcount : jsIsString this = true → ¬ ∃ c', jsToInt32Sat eng fuel (arg argv 0) c
      = some (none, c')) :
    Answers (jsStringRepeat eng fuel this argv) c IsString := by
  unfold jsStringRepeat
  split
  · exact throws_answers
  · next v hv =>
    have hstring : jsIsString this = true := by
      rw [jsIsString, hv]
      rfl
    have hlive := hthis.of_str? hv
    refine (jsToInt32Internal_converts hc (arg_live hargs 0)).orReturn_of_some hc
      (hcount hstring) ?_
    intro n c₁ hc₁ hg _
    unfold Answers Runs
    dsimp only
    split_ifs
    · exact throws_answers
    · exact returns_answers hc₁ ⟨hstring, hthis.mono hg⟩
    · split
      · exact throws_answers
      · next s hs =>
        have hpush : s.val ≠ .exception ∧ BufLive c₁.heap s := by
          unfold stringBufferPush at hs
          split_ifs at hs
          · obtain ⟨arr, -, rfl⟩ := Option.map_eq_some_iff.1 hs
            exact ⟨by simp, trivial⟩
          · rw [← Option.some.inj hs]
            exact ⟨by simp, hc₁.empty⟩
        exact repeatLoop_answers (.inr ⟨hpush.1, hpush.2, hc₁⟩) (hlive.mono hg)

end Methods

/-- Each method but `repeat`. -/
theorem call_answers {eng : Engine a U} {fuel : ℕ} {m : Method} {this : Val a}
    {argv : List (Val a)} (hc : Ready c) (hthis : this.Live c.heap)
    (hargs : ∀ v ∈ argv, v.Live c.heap)
    (hcount : m = .repeat → jsIsString this = true →
      ¬ ∃ c', jsToInt32Sat eng fuel (arg argv 0) c = some (none, c')) :
    Answers (m.call eng fuel this argv) c m.HasType := by
  unfold Method.call
  cases m with
  | charAt => exact jsStringCharAt_answers .charAt hc hthis hargs
  | charCodeAt => exact jsStringCharAt_answers .charCodeAt hc hthis hargs
  | codePointAt => exact jsStringCharAt_answers .codePointAt hc hthis hargs
  | slice => exact jsStringSlice_answers hc hthis hargs
  | substring => exact jsStringSubstring_answers hc hthis hargs
  | concat => exact jsStringConcat_answers hc hthis hargs
  | indexOf => exact jsStringIndexOf_answers hc hthis hargs
  | lastIndexOf => exact jsStringIndexOf_answers hc hthis hargs
  | trim => exact jsStringTrim_answers hc hthis
  | trimEnd => exact jsStringTrim_answers hc hthis
  | trimStart => exact jsStringTrim_answers hc hthis
  | «repeat» => exact jsStringRepeat_answers hc hthis hargs (hcount rfl)
  | fromCharCode => exact jsStringFromCharCode_answers hc hargs
  | fromCodePoint => exact jsStringFromCharCode_answers hc hargs

theorem minusOne_ne_exception : (.word (BitVec.ofInt _ (-1)) : Val a) ≠ jsException := by
  intro h
  cases a with
  | jsw4 => exact absurd (Val.word.inj h) (by decide)
  | jsw8 => exact absurd (Val.word.inj h) (by decide)

/-- The exception comes back as `JS_EXCEPTION`, and everything else is a value of the documented
type, in all calls but those of `repeat` on a string whose count cannot be converted. -/
theorem call_answers_iff (eng : Engine a U) (m : Method) (this : Val a) (argv : List (Val a))
    (hc : Ready c) (hthis : this.Live c.heap) (hargs : ∀ v ∈ argv, v.Live c.heap) :
    (∀ fuel, Answers (m.call eng fuel this argv) c m.HasType) ↔
      ¬ (m = .repeat ∧ jsIsString this = true ∧
        ∃ fuel c', jsToInt32Sat eng fuel (arg argv 0) c = some (none, c')) := by
  constructor
  · rintro h ⟨rfl, hstring, fuel, c', hthrow⟩
    obtain ⟨v, hv⟩ := Option.isSome_iff_exists.1 hstring
    have hcall : Method.call eng fuel .repeat this argv c
        = some (.word (BitVec.ofInt _ (-1)), c') := by
      unfold Method.call jsStringRepeat
      simp only [hv, orReturn, hthrow, Option.bind_some]
    have hexc := (jsToInt32Internal_converts hc (arg_live hargs 0) _ _ hthrow).2.1
    exact minusOne_ne_exception ((h fuel _ _ hcall).1 hexc)
  · intro h fuel
    refine call_answers hc hthis hargs ?_
    rintro rfl hstring ⟨c', hthrow⟩
    exact h ⟨rfl, hstring, fuel, c', hthrow⟩

/-! ### A count that cannot be converted -/

/-- Every property is a function that throws. -/
def throwingEngine : Engine .jsw8 Unit where
  mem _ _ := true
  dtoa _ := []
  dtoaMem _ _ := true
  isFunction _ v := v = .word (jsValueMakeSpecial jsTagShortFunc 0)
  stackCheck _ := true
  getProperty _ _ h u := some (some (.word (jsValueMakeSpecial jsTagShortFunc 0)), h, u)
  call _ _ h u := some (none, h, u)
  getProperty_live := by
    intro v k h u r h' u' hr
    obtain ⟨rfl, rfl, rfl⟩ : _ ∧ h = h' ∧ u = u' := by simpa using hr
    exact ⟨.refl h, by simp [Val.Live]⟩
  call_live := by
    intro f v h u r h' u' hr
    obtain ⟨rfl, rfl, rfl⟩ : _ ∧ h = h' ∧ u = u' := by simpa using hr
    exact ⟨.refl h, by simp⟩

def atomTexts : List String := ["", "null", "undefined", "true", "false", "toString", "valueOf"]

/-- Only the atoms. -/
def atomCtx : Ctx Unit where
  heap :=
    { strings id := atomTexts[id]?.map fun s => ⟨true, true, false, s.toList.map Char.toNat⟩
      next := 7
      cache _ := ⟨none, 0, 0⟩
      cacheCounter := 0 }
  user := ()
  hasException := false

theorem atomCtx_ready : Ready atomCtx := ⟨fun k => by cases k <;> rfl, rfl⟩

/-- `"a".repeat({ valueOf() { throw … } })` -/
theorem repeat_gives_catch_offset :
    ¬ ∀ fuel, Answers
      (Method.call throwingEngine fuel .repeat (.ofStr (.char 0x61)) [.obj 0]) atomCtx
      (Method.HasType .repeat) := by
  intro h
  have hcall : Method.call throwingEngine 1 .repeat (.ofStr (.char 0x61)) [.obj 0] atomCtx
      = some (.word (BitVec.ofInt _ (-1)), atomCtx.throw) := rfl
  exact minusOne_ne_exception ((h 1 _ _ hcall).1 rfl)

theorem call_answers_iff_atomCtx :
    (∀ fuel, Answers (Method.call throwingEngine fuel .slice (.ofStr (.char 0x61)) [.obj 0])
      atomCtx (Method.HasType .slice)) ↔
      ¬ (Method.slice = .repeat ∧ jsIsString (a := .jsw8) (.ofStr (.char 0x61)) = true ∧
        ∃ fuel c', jsToInt32Sat throwingEngine fuel (arg [.obj 0] 0) atomCtx = some (none, c')) :=
  call_answers_iff throwingEngine .slice (.ofStr (.char 0x61)) [.obj 0] atomCtx_ready
    (live_ofStr (liveStr_char _ _)) (by simp [Val.Live])

end StringMethods

end Qjs
