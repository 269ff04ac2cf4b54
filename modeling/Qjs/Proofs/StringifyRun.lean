import Qjs.Proofs.Keys

/-!
# Runs of JSON.stringify

The loop over an explicit stack does what a recursion over the values does that knows the objects it
is in (`ser_reaches`). That recursion fails exactly when a cycle can be reached (`ser_eq_none_iff`),
so the run ends with a circular reference exactly then and with a text otherwise
(`stringifies_circular_iff`, `stringifies_ok_iff`).
-/

namespace Qjs

namespace Json

variable {n : ℕ} {D : Type} {N : Numbers D} {h : Fin n → Obj n D}

/-! ### Turns of the loop -/

variable (N h) in
/-- Some turns of the loop lead there. -/
def Reaches (w : Writer n D) (x : Writer n D ⊕ Done) : Prop := ∃ k, jsonRun N h k w = x

theorem Reaches.step {w w' : Writer n D} {x : Writer n D ⊕ Done} (hs : jsonStep N h w = .inl w')
    (hr : Reaches N h w' x) : Reaches N h w x := by
  obtain ⟨k, hk⟩ := hr
  refine ⟨k + 1, ?_⟩
  rw [jsonRun, hs]
  exact hk

theorem Reaches.refl (w : Writer n D) : Reaches N h w (.inl w) := ⟨0, rfl⟩

theorem Reaches.done {w : Writer n D} {d : Done} (hs : jsonStep N h w = .inr d) :
    Reaches N h w (.inr d) := by
  refine ⟨1, ?_⟩
  rw [jsonRun, hs]

theorem Reaches.trans {w w' : Writer n D} {x : Writer n D ⊕ Done}
    (hr : Reaches N h w (.inl w')) (hr' : Reaches N h w' x) : Reaches N h w x := by
  obtain ⟨k, hk⟩ := hr
  induction k generalizing w with
  | zero =>
    cases hk
    exact hr'
  | succ k ih =>
    rw [jsonRun] at hk
    cases hs : jsonStep N h w with
    | inl w₁ =>
      rw [hs] at hk
      exact .step hs (ih hk)
    | inr d =>
      rw [hs] at hk
      cases hk

/-- A run ends in one way. -/
theorem Reaches.unique {w : Writer n D} {d d' : Done} (hr : Reaches N h w (.inr d))
    (hr' : Reaches N h w (.inr d')) : d = d' := by
  obtain ⟨k, hk⟩ := hr
  obtain ⟨k', hk'⟩ := hr'
  induction k generalizing w k' with
  | zero => cases hk
  | succ k ih =>
    cases k' with
    | zero => cases hk'
    | succ k' =>
      rw [jsonRun] at hk hk'
      cases hs : jsonStep N h w with
      | inl w₁ =>
        rw [hs] at hk hk'
        exact ih hk _ hk'
      | inr d₁ =>
        rw [hs] at hk hk'
        cases hk
        cases hk'
        rfl

/-! ### The recursion -/

/-- What is written for a value that is not an object. -/
def leafText (N : Numbers D) : Val n D → List ℕ
  | .num d => if N.isFinite d then N.text d else nullText
  | .bool b => boolText b
  | .str us => jsToQuotedString us
  | _ => nullText

/-- Texts with commas between them. -/
def joinComma : List (List ℕ) → List ℕ
  | [] => []
  | t :: ts => t ++ ts.flatMap (0x2c :: ·)

def inPath (path : List (Fin n)) : Val n D → Bool
  | .ref id => path.contains id
  | _ => false

/-- The properties that are written. -/
def defined (props : Props n D) : List (PropKey × Val n D) :=
  props.list.filter fun p => match p.2 with
    | .undefined => false
    | _ => true

variable (N h) in
/-- The text of a value within the objects of `path`; `depth` bounds the objects in one another. -/
def ser : ℕ → List (Fin n) → Val n D → Option (List ℕ)
  | 0, _, .ref _ => none
  | depth + 1, path, .ref id =>
    let child v := if inPath (id :: path) v then none else ser depth (id :: path) v
    match h id with
    | .array els => (els.mapM child).map fun ts => 0x5b :: (joinComma ts ++ [0x5d])
    | .object props =>
      ((defined props).mapM fun p =>
        (child p.2).map fun t => jsToQuotedString (keyText p.1) ++ 0x3a :: t).map
        fun ts => 0x7b :: (joinComma ts ++ [0x7d])
  | _, _, v => some (leafText N v)

variable (N h) in
/-- What is written of an element within `path`. -/
def serChild (depth : ℕ) (path : List (Fin n)) (v : Val n D) : Option (List ℕ) :=
  if inPath path v then none else ser N h depth path v

variable (N h) in
def serProp (depth : ℕ) (path : List (Fin n)) (p : PropKey × Val n D) : Option (List ℕ) :=
  (serChild N h depth path p.2).map fun t => jsToQuotedString (keyText p.1) ++ 0x3a :: t

theorem ser_array {depth : ℕ} {path : List (Fin n)} {id : Fin n} {els : List (Val n D)}
    (hid : h id = .array els) :
    ser N h (depth + 1) path (.ref id) = (els.mapM (serChild N h depth (id :: path))).map
      fun ts => 0x5b :: (joinComma ts ++ [0x5d]) := by
  rw [ser, hid]
  rfl

theorem ser_object {depth : ℕ} {path : List (Fin n)} {id : Fin n} {props : Props n D}
    (hid : h id = .object props) :
    ser N h (depth + 1) path (.ref id)
      = ((defined props).mapM (serProp N h depth (id :: path))).map
        fun ts => 0x7b :: (joinComma ts ++ [0x7d]) := by
  rw [ser, hid]
  rfl

theorem ser_leaf (depth : ℕ) (path : List (Fin n)) {v : Val n D} (hv : ∀ id, v ≠ .ref id) :
    ser N h depth path v = some (leafText N v) := by
  cases v with
  | ref id => exact absurd rfl (hv id)
  | _ => cases depth <;> rfl

/-! ### The stack -/

/-- The records below are those of the objects of `path`. -/
def PathOk (path : List (Fin n)) (rest : List (Rec n D)) : Prop :=
  rest.map (·.obj) = path.map .ref

theorem checkCircularRef_eq {path : List (Fin n)} {rest : List (Rec n D)} (hp : PathOk path rest)
    (v : Val n D) : checkCircularRef rest v = inPath path v := by
  cases v with
  | ref id =>
    unfold PathOk at hp
    induction path generalizing rest with
    | nil =>
      rw [List.map_nil, List.map_eq_nil_iff] at hp
      subst hp
      rfl
    | cons a path ih =>
      cases rest with
      | nil => cases hp
      | cons r rest =>
        rw [List.map_cons, List.map_cons, List.cons.injEq] at hp
        have := ih hp.2
        simp only [checkCircularRef, inPath, List.any_cons, List.contains_cons] at this ⊢
        rw [this, hp.1]
        congr 1
        rw [beq_eq_decide]
        exact decide_eq_decide.2 eq_comm
  | _ => rfl

/-- What is left to write after `i` elements. -/
def seps (i : ℕ) (ts : List (List ℕ)) : List ℕ :=
  if i = 0 then joinComma ts else ts.flatMap (0x2c :: ·)

theorem seps_nil (i : ℕ) : seps i [] = [] := by
  unfold seps
  split_ifs <;> rfl

theorem seps_cons (i : ℕ) (t : List ℕ) (ts : List (List ℕ)) :
    seps i (t :: ts) = (if i ≠ 0 then [0x2c] else []) ++ t ++ seps (i + 1) ts := by
  by_cases hi : i = 0
  · simp [seps, hi, joinComma]
  · simp [seps, hi]

variable (N h) in
/-- The loop writes a value as the recursion does. -/
structure SimAt (depth : ℕ) (path : List (Fin n)) (v : Val n D) : Prop where
  ok : ∀ {rest out t}, PathOk path rest → ser N h depth path v = some t →
    Reaches N h ⟨⟨v, 0, []⟩ :: rest, out⟩ (.inl ⟨rest, out ++ t⟩)
  circular : ∀ {rest out}, PathOk path rest → ser N h depth path v = none →
    Reaches N h ⟨⟨v, 0, []⟩ :: rest, out⟩ (.inr .circular)

theorem SimAt_iff {depth : ℕ} {path : List (Fin n)} {v : Val n D} :
    SimAt N h depth path v ↔ ∀ rest out, PathOk path rest →
      (∀ t, ser N h depth path v = some t →
        Reaches N h ⟨⟨v, 0, []⟩ :: rest, out⟩ (.inl ⟨rest, out ++ t⟩))
      ∧ (ser N h depth path v = none →
        Reaches N h ⟨⟨v, 0, []⟩ :: rest, out⟩ (.inr .circular)) := by
  refine ⟨fun hs rest out hp => ⟨fun t => hs.ok hp, hs.circular hp⟩, fun hs => ⟨?_, ?_⟩⟩
  · intro rest out t hp ht
    exact (hs rest out hp).1 t ht
  · intro rest out hp ht
    exact (hs rest out hp).2 ht

/-! ### Properties -/

theorem getProperty_eq (props : Props n D) {p : PropKey × Val n D} (hp : p ∈ props.list) :
    getProperty props (toPropertyKey (keyText p.1)) = p.2 := by
  rw [toPropertyKey_keyText (props.keys p hp), getProperty]
  have hfind : props.list.find? (fun q => decide (q.1 = p.1)) = some p := by
    obtain ⟨l₁, l₂, hl⟩ := List.append_of_mem hp
    have hnodup := props.nodup
    rw [hl, List.map_append, List.map_cons, List.nodup_append] at hnodup
    rw [hl, List.find?_append, List.find?_cons_of_pos (by simp), List.find?_eq_none.2, Option.none_or]
    intro q hq heq
    exact hnodup.2.2 q.1 (List.mem_map_of_mem hq) p.1 List.mem_cons_self (by simpa using heq)
  rw [hfind]
  rfl

/-- Whether a property is written. -/
def isDefined (p : PropKey × Val n D) : Bool := match p.2 with
  | .undefined => false
  | _ => true

theorem defined_eq (props : Props n D) : defined props = props.list.filter isDefined := rfl

/-- The next property is the first one that is defined. -/
theorem nextProp_spec (props : Props n D) : ∀ (l : List (PropKey × Val n D)) (i : ℕ),
    (∀ p ∈ l, p ∈ props.list) →
    (nextProp props i (l.map (keyText ·.1)) = none ∧ l.filter isDefined = [])
    ∨ ∃ pre p post, l = pre ++ p :: post ∧ l.filter isDefined = p :: post.filter isDefined
      ∧ nextProp props i (l.map (keyText ·.1)) = some (i + pre.length, keyText p.1, p.2)
  | [], i, _ => .inl ⟨rfl, rfl⟩
  | p :: l, i, hl => by
    have hget := getProperty_eq props (hl p List.mem_cons_self)
    by_cases hd : isDefined p = true
    · refine .inr ⟨[], p, l, rfl, by rw [List.filter_cons_of_pos hd], ?_⟩
      rw [List.map_cons, nextProp, hget]
      have hne : p.2 ≠ .undefined := by
        intro hu
        simp [isDefined, hu] at hd
      rcases hv : p.2 with _ | _ | _ | _ | _ | _ | _
      · exact absurd hv hne
      all_goals rfl
    · have hu : p.2 = .undefined := by
        unfold isDefined at hd
        split at hd
        · assumption
        · exact absurd rfl hd
      have hnext : nextProp props i ((p :: l).map (keyText ·.1))
          = nextProp props (i + 1) (l.map (keyText ·.1)) := by
        rw [List.map_cons, nextProp, hget, hu]
      rw [hnext, List.filter_cons_of_neg hd]
      rcases nextProp_spec props l (i + 1) (fun q hq => hl q (List.mem_cons_of_mem _ hq)) with
        hn | ⟨pre, q, post, rfl, hf, hn⟩
      · exact .inl hn
      · refine .inr ⟨p :: pre, q, post, rfl, hf, ?_⟩
        rw [hn, List.length_cons, Nat.add_assoc, Nat.add_comm 1]

section Loops

variable {depth : ℕ} {path : List (Fin n)}

/-- A value that is in another one. -/
theorem push_ok {v : Val n D} {stack : List (Rec n D)} {out t : List ℕ} {w : Writer n D}
    (ih : inPath path v = false → SimAt N h depth path v) (hp : PathOk path stack)
    (hw : jsonStep N h w = pushVal stack out v) (ht : serChild N h depth path v = some t) :
    Reaches N h w (.inl ⟨stack, out ++ t⟩) := by
  unfold serChild at ht
  split_ifs at ht with hin
  rw [pushVal, checkCircularRef_eq hp, if_neg hin] at hw
  exact .step hw ((ih (by simpa using hin)).ok hp ht)

theorem push_circular {v : Val n D} {stack : List (Rec n D)} {out : List ℕ} {w : Writer n D}
    (ih : inPath path v = false → SimAt N h depth path v) (hp : PathOk path stack)
    (hw : jsonStep N h w = pushVal stack out v) (ht : serChild N h depth path v = none) :
    Reaches N h w (.inr .circular) := by
  unfold serChild at ht
  rw [pushVal, checkCircularRef_eq hp] at hw
  split_ifs at ht hw with hin
  · exact .done hw
  · exact .step hw ((ih (by simpa using hin)).circular hp ht)

variable {id : Fin n} (ih : ∀ v, inPath (id :: path) v = false → SimAt N h depth (id :: path) v)
  {rest : List (Rec n D)} (hp : PathOk path rest)

include ih hp

/-- The elements of an array from the one with index `i` on. -/
theorem array_loop {els : List (Val n D)} (hid : h id = .array els) :
    ∀ (es : List (Val n D)) (i : ℕ) (ks : List (List ℕ)) (out : List ℕ), els.drop i = es →
    (∀ ts, es.mapM (serChild N h depth (id :: path)) = some ts →
      Reaches N h ⟨⟨.ref id, i, ks⟩ :: rest, out⟩
        (.inl ⟨rest, (if i = 0 then out ++ [0x5b] else out) ++ seps i ts ++ [0x5d]⟩))
    ∧ (es.mapM (serChild N h depth (id :: path)) = none →
      Reaches N h ⟨⟨.ref id, i, ks⟩ :: rest, out⟩ (.inr .circular))
  | [], i, ks, out, hes => by
    have hget : els[i]? = none := by
      rw [List.getElem?_eq_none_iff]
      exact List.drop_eq_nil_iff.1 hes
    have hstep : jsonStep N h ⟨⟨.ref id, i, ks⟩ :: rest, out⟩
        = .inl ⟨rest, (if i = 0 then out ++ [0x5b] else out) ++ [0x5d]⟩ := by
      simp only [jsonStep, hid, hget]
    refine ⟨?_, ?_⟩
    · intro ts hts
      rw [List.mapM_nil] at hts
      cases hts
      rw [seps_nil, List.append_nil]
      exact .step hstep (.refl _)
    · intro hts
      cases hts
  | v :: es, i, ks, out, hes => by
    have hget : els[i]? = some v := by
      rw [← List.head?_drop, hes, List.head?_cons]
    have hdrop : els.drop (i + 1) = es := by
      rw [← List.tail_drop, hes, List.tail_cons]
    have hp' : PathOk (id :: path) (⟨.ref id, i + 1, ks⟩ :: rest) := by
      simp only [PathOk, List.map_cons, List.cons.injEq, true_and]
      exact hp
    have hstep : jsonStep N h ⟨⟨.ref id, i, ks⟩ :: rest, out⟩
        = pushVal (⟨.ref id, i + 1, ks⟩ :: rest)
          ((if i = 0 then out ++ [0x5b] else out) ++ if i ≠ 0 then [0x2c] else []) v := by
      simp only [jsonStep, hid, hget]
      split_ifs <;> simp
    have hrec := array_loop hid es (i + 1) ks
    rw [List.mapM_cons]
    cases hc : serChild N h depth (id :: path) v with
    | none =>
      refine ⟨fun ts hts => ?_, fun _ => push_circular (ih v) hp' hstep hc⟩
      simp at hts
    | some t =>
      have hfirst := push_ok (ih v) hp' hstep hc
      cases hm : es.mapM (serChild N h depth (id :: path)) with
      | none =>
        refine ⟨fun ts hts => ?_, fun _ => hfirst.trans ((hrec _ hdrop).2 hm)⟩
        simp at hts
      | some ts =>
        refine ⟨?_, fun hts => by simp at hts⟩
        intro ts' hts'
        have hts : t :: ts = ts' := by simpa using hts'
        subst hts
        have hlast := hfirst.trans ((hrec _ hdrop).1 ts hm)
        rw [if_neg (Nat.succ_ne_zero i)] at hlast
        rw [seps_cons]
        simpa only [List.append_assoc] using hlast

/-- The properties of an object from the one with index `i` on. -/
theorem object_loop {props : Props n D} (hid : h id = .object props) :
    ∀ (m i : ℕ) (ks : List (List ℕ)) (out : List ℕ), (props.list.drop i).length < m →
    (i = 0 ∨ ks = props.list.map (keyText ·.1)) →
    (∀ ts, ((props.list.drop i).filter isDefined).mapM (serProp N h depth (id :: path)) = some ts →
      Reaches N h ⟨⟨.ref id, i, ks⟩ :: rest, out⟩
        (.inl ⟨rest, (if i = 0 then out ++ [0x7b] else out) ++ seps i ts ++ [0x7d]⟩))
    ∧ (((props.list.drop i).filter isDefined).mapM (serProp N h depth (id :: path)) = none →
      Reaches N h ⟨⟨.ref id, i, ks⟩ :: rest, out⟩ (.inr .circular)) := by
  intro m
  induction m with
  | zero =>
    intro i ks out hm
    exact absurd hm (Nat.not_lt_zero _)
  | succ m ihm =>
    intro i ks out hm hks
    have hkeys : (if i = 0 then props.list.map (keyText ·.1) else ks)
        = props.list.map (keyText ·.1) := by
      rcases hks with rfl | rfl
      · exact if_pos rfl
      · split_ifs <;> rfl
    have hdrop : (props.list.map (keyText ·.1)).drop i = (props.list.drop i).map (keyText ·.1) :=
      List.map_drop.symm
    rcases nextProp_spec props (props.list.drop i) i (fun p hp => List.mem_of_mem_drop hp) with
      ⟨hn, hf⟩ | ⟨pre, p, post, hl, hf, hn⟩
    · have hstep : jsonStep N h ⟨⟨.ref id, i, ks⟩ :: rest, out⟩
          = .inl ⟨rest, (if i = 0 then out ++ [0x7b] else out) ++ [0x7d]⟩ := by
        simp only [jsonStep, hid, hkeys, hdrop, hn]
      rw [hf, List.mapM_nil]
      refine ⟨?_, fun hts => by cases hts⟩
      intro ts hts
      cases hts
      rw [seps_nil, List.append_nil]
      exact .step hstep (.refl _)
    · have hstep : jsonStep N h ⟨⟨.ref id, i, ks⟩ :: rest, out⟩
          = pushVal (⟨.ref id, i + pre.length + 1, props.list.map (keyText ·.1)⟩ :: rest)
            ((if i = 0 then out ++ [0x7b] else out) ++ (if i ≠ 0 then [0x2c] else [])
              ++ jsToQuotedString (keyText p.1) ++ [0x3a]) p.2 := by
        simp only [jsonStep, hid, hkeys, hdrop, hn]
        split_ifs <;> simp
      have hp' : PathOk (id :: path)
          (⟨.ref id, i + pre.length + 1, props.list.map (keyText ·.1)⟩ :: rest) := by
        simp only [PathOk, List.map_cons, List.cons.injEq, true_and]
        exact hp
      have hpost : props.list.drop (i + pre.length + 1) = post := by
        rw [Nat.add_assoc, ← List.drop_drop, hl, ← List.drop_drop, List.drop_left]
        rfl
      have hlen : post.length < m := by
        rw [hl, List.length_append, List.length_cons] at hm
        omega
      have hrec := ihm (i + pre.length + 1) (props.list.map (keyText ·.1))
      rw [hpost] at hrec
      rw [hf, List.mapM_cons]
      cases hc : serChild N h depth (id :: path) p.2 with
      | none =>
        have hprop : serProp N h depth (id :: path) p = none := by
          rw [serProp, hc]
          rfl
        refine ⟨fun ts hts => ?_, fun _ => push_circular (ih p.2) hp' hstep hc⟩
        simp [hprop] at hts
      | some t =>
        have hprop : serProp N h depth (id :: path) p
            = some (jsToQuotedString (keyText p.1) ++ 0x3a :: t) := by
          rw [serProp, hc]
          rfl
        have hfirst := push_ok (ih p.2) hp' hstep hc
        cases hmap : (post.filter isDefined).mapM (serProp N h depth (id :: path)) with
        | none =>
          refine ⟨fun ts hts => ?_, fun _ => hfirst.trans ((hrec _ hlen (.inr rfl)).2 hmap)⟩
          simp [hprop] at hts
        | some ts =>
          refine ⟨?_, fun hts => by simp [hprop] at hts⟩
          intro ts' hts'
          have hts : (jsToQuotedString (keyText p.1) ++ 0x3a :: t) :: ts = ts' := by
            simpa [hprop] using hts'
          subst hts
          have hlast := hfirst.trans ((hrec _ hlen (.inr rfl)).1 ts hmap)
          rw [if_neg (Nat.succ_ne_zero _)] at hlast
          have hseps : seps (i + pre.length + 1) ts = seps (i + 1) ts := by simp [seps]
          rw [hseps] at hlast
          rw [seps_cons]
          simpa only [List.append_assoc, List.cons_append, List.nil_append] using hlast

end Loops

theorem jsonStep_leaf {v : Val n D} (hv : ∀ id, v ≠ .ref id) (i : ℕ) (ks : List (List ℕ))
    (rest : List (Rec n D)) (out : List ℕ) :
    jsonStep N h ⟨⟨v, i, ks⟩ :: rest, out⟩ = .inl ⟨rest, out ++ leafText N v⟩ := by
  cases v with
  | ref id => exact absurd rfl (hv id)
  | _ => rfl

/-- The loop does what the recursion does, as long as the depth allows for the objects that are not
open yet. -/
theorem ser_reaches (depth : ℕ) : ∀ (path : List (Fin n)) (v : Val n D), path.Nodup →
    n ≤ depth + path.length → inPath path v = false → SimAt N h depth path v := by
  induction depth with
  | zero =>
    intro path v hnodup hlen hin
    refine ⟨?_, ?_⟩
    · intro rest out t _ ht
      by_cases hv : ∀ id, v ≠ .ref id
      · rw [ser_leaf 0 path hv, Option.some.injEq] at ht
        subst ht
        exact .step (jsonStep_leaf hv _ _ _ _) (.refl _)
      · push Not at hv
        obtain ⟨id, rfl⟩ := hv
        cases ht
    · intro rest out _ ht
      by_cases hv : ∀ id, v ≠ .ref id
      · rw [ser_leaf 0 path hv] at ht
        cases ht
      · -- all the objects would be open, and one more
        push Not at hv
        obtain ⟨id, rfl⟩ := hv
        have hall : (id :: path).Nodup := List.nodup_cons.2 ⟨by simpa [inPath] using hin, hnodup⟩
        have := hall.length_le_card
        rw [List.length_cons, Fintype.card_fin] at this
        omega
  | succ depth ih =>
    intro path v hnodup hlen hin
    by_cases hv : ∀ id, v ≠ .ref id
    · refine ⟨?_, ?_⟩
      · intro rest out t _ ht
        rw [ser_leaf _ path hv, Option.some.injEq] at ht
        subst ht
        exact .step (jsonStep_leaf hv _ _ _ _) (.refl _)
      · intro rest out _ ht
        rw [ser_leaf _ path hv] at ht
        cases ht
    · push Not at hv
      obtain ⟨id, rfl⟩ := hv
      have hchild : ∀ v, inPath (id :: path) v = false → SimAt N h depth (id :: path) v := by
        intro v
        refine ih (id :: path) v (List.nodup_cons.2 ⟨by simpa [inPath] using hin, hnodup⟩) ?_
        rw [List.length_cons]
        omega
      cases hid : h id with
      | array els =>
        rw [SimAt_iff, ser_array hid]
        intro rest out hp
        obtain ⟨hok, hcirc⟩ := array_loop hchild hp hid els 0 [] out rfl
        refine ⟨?_, ?_⟩
        · intro t ht
          obtain ⟨ts, hts, rfl⟩ := Option.map_eq_some_iff.1 ht
          have hout := hok ts hts
          rw [if_pos rfl, seps, if_pos rfl] at hout
          simpa only [List.append_assoc, List.cons_append, List.nil_append] using hout
        · intro ht
          exact hcirc (Option.map_eq_none_iff.1 ht)
      | object props =>
        rw [SimAt_iff, ser_object hid]
        intro rest out hp
        obtain ⟨hok, hcirc⟩ := object_loop hchild hp hid _ 0 [] out (Nat.lt_succ_self _) (.inl rfl)
        refine ⟨?_, ?_⟩
        · intro t ht
          obtain ⟨ts, hts, rfl⟩ := Option.map_eq_some_iff.1 ht
          have hout := hok ts hts
          rw [if_pos rfl, seps, if_pos rfl] at hout
          simpa only [List.append_assoc, List.cons_append, List.nil_append] using hout
        · intro ht
          exact hcirc (Option.map_eq_none_iff.1 ht)

variable (N h) in
/-- What the run ends with is what the recursion gives. -/
theorem stringifies_ser (v : Val n D) (d : Done) :
    Stringifies N h v d ↔ d = match ser N h n [] v with
      | some t => .ok t
      | none => .circular := by
  have hsim : SimAt N h n [] v := ser_reaches n [] v List.nodup_nil (by simp) (by cases v <;> rfl)
  have hpath : PathOk [] ([] : List (Rec n D)) := rfl
  have hrun : Reaches N h ⟨[⟨v, 0, []⟩], []⟩ (.inr (match ser N h n [] v with
      | some t => .ok t
      | none => .circular)) := by
    cases hs : ser N h n [] v with
    | none => exact hsim.circular hpath hs
    | some t => exact (hsim.ok hpath hs).trans (.done rfl)
  refine ⟨fun hd => Reaches.unique hd hrun, ?_⟩
  rintro rfl
  exact hrun

/-! ### Cycles -/

variable (h) in
/-- The value `v` is an element or a property of the object `a`. -/
def Child (a : Fin n) (v : Val n D) : Prop :=
  match h a with
  | .array els => v ∈ els
  | .object props => ∃ k, (k, v) ∈ props.list

variable (h) in
def Edge (a b : Fin n) : Prop := Child h a (.ref b)

variable (h) in
/-- A cycle can be reached from `v`. -/
def Cyclic (v : Val n D) : Prop :=
  ∃ a b, v = .ref a ∧ Relation.ReflTransGen (Edge h) a b ∧ Relation.TransGen (Edge h) b b

theorem mapM_eq_none {α β : Type} {f : α → Option β} : ∀ {l : List α}, l.mapM f = none →
    ∃ a ∈ l, f a = none
  | [], hl => by
    rw [List.mapM_nil] at hl
    cases hl
  | a :: l, hl => by
    cases ha : f a with
    | none => exact ⟨a, List.mem_cons_self, ha⟩
    | some b =>
      cases hm : l.mapM f with
      | none =>
        obtain ⟨a', hmem, ha'⟩ := mapM_eq_none hm
        exact ⟨a', List.mem_cons_of_mem _ hmem, ha'⟩
      | some bs => simp [ha, hm] at hl

theorem mapM_eq_some {α β : Type} {f : α → Option β} : ∀ {l : List α} {bs : List β},
    l.mapM f = some bs ↔ List.Forall₂ (fun a b => f a = some b) l bs
  | [], bs => by
    rw [List.mapM_nil, List.forall₂_nil_left_iff]
    exact ⟨fun hl => (Option.some.inj hl).symm, fun hl => congrArg some hl.symm⟩
  | a :: l, bs => by
    rw [List.mapM_cons, List.forall₂_cons_left_iff]
    simp only [Option.bind_eq_bind, Option.bind_eq_some_iff, Option.pure_def, Option.some.injEq,
      mapM_eq_some]
    constructor
    · rintro ⟨b, hb, bs', hbs', rfl⟩
      exact ⟨b, bs', hb, hbs', rfl⟩
    · rintro ⟨b, bs', hb, hbs', rfl⟩
      exact ⟨b, hb, bs', hbs', rfl⟩

theorem exists_of_forall₂ {α β : Type} {r : α → β → Prop} {l : List α} {bs : List β}
    (hl : List.Forall₂ r l bs) {a : α} (ha : a ∈ l) : ∃ b ∈ bs, r a b := by
  induction hl with
  | nil => cases ha
  | cons hab _ ih =>
    rcases List.mem_cons.1 ha with rfl | ha
    · exact ⟨_, List.mem_cons_self, hab⟩
    · obtain ⟨b, hb, hr⟩ := ih ha
      exact ⟨b, List.mem_cons_of_mem _ hb, hr⟩

theorem serProp_eq_none {depth : ℕ} {path : List (Fin n)} {p : PropKey × Val n D} :
    serProp N h depth path p = none ↔ serChild N h depth path p.2 = none :=
  Option.map_eq_none_iff

theorem ser_none_child {depth : ℕ} {path : List (Fin n)} {id : Fin n}
    (hs : ser N h (depth + 1) path (.ref id) = none) :
    ∃ v, Child h id v ∧ serChild N h depth (id :: path) v = none := by
  unfold Child
  cases hid : h id with
  | array els =>
    rw [ser_array hid, Option.map_eq_none_iff] at hs
    exact mapM_eq_none hs
  | object props =>
    rw [ser_object hid, Option.map_eq_none_iff] at hs
    obtain ⟨p, hp, hnone⟩ := mapM_eq_none hs
    exact ⟨p.2, ⟨p.1, (List.mem_filter.1 hp).1⟩, serProp_eq_none.1 hnone⟩

theorem ser_some_child {depth : ℕ} {path : List (Fin n)} {id b : Fin n} {t : List ℕ}
    (hs : ser N h (depth + 1) path (.ref id) = some t) (hb : Edge h id b) :
    serChild N h depth (id :: path) (.ref b) ≠ none := by
  unfold Edge Child at hb
  intro hnone
  cases hid : h id with
  | array els =>
    rw [hid] at hb
    rw [ser_array hid, Option.map_eq_some_iff] at hs
    obtain ⟨ts, hts, -⟩ := hs
    obtain ⟨t', -, ht'⟩ := exists_of_forall₂ (mapM_eq_some.1 hts) hb
    rw [hnone] at ht'
    cases ht'
  | object props =>
    rw [hid] at hb
    obtain ⟨k, hk⟩ := hb
    rw [ser_object hid, Option.map_eq_some_iff] at hs
    obtain ⟨ts, hts, -⟩ := hs
    obtain ⟨t', -, ht'⟩ := exists_of_forall₂ (mapM_eq_some.1 hts) (List.mem_filter.2 ⟨hk, rfl⟩)
    rw [serProp_eq_none.2 hnone] at ht'
    cases ht'

theorem inPath_ref {path : List (Fin n)} {b : Fin n} :
    inPath path (.ref b : Val n D) = true ↔ b ∈ path := by
  simp [inPath]

theorem Cyclic.head {a b : Fin n} (hab : Edge h a b) (hb : Cyclic h (.ref b)) :
    Cyclic h (.ref a) := by
  obtain ⟨b', c, heq, hbc, hc⟩ := hb
  cases heq
  exact ⟨a, c, rfl, .head hab hbc, hc⟩

/-- The objects that are open all lead to the one that is written, so a child among them closes a
cycle. -/
theorem cyclic_of_ser_none (depth : ℕ) : ∀ (path : List (Fin n)) (id : Fin n), path.Nodup →
    n ≤ depth + path.length → id ∉ path → (∀ a ∈ path, Relation.TransGen (Edge h) a id) →
    ser N h depth path (.ref id) = none → Cyclic h (.ref id) := by
  induction depth with
  | zero =>
    intro path id hnodup hlen hin _ _
    have := (List.nodup_cons.2 ⟨hin, hnodup⟩).length_le_card
    rw [List.length_cons, Fintype.card_fin] at this
    omega
  | succ depth ih =>
    intro path id hnodup hlen hin hpath hs
    obtain ⟨v, hv, hnone⟩ := ser_none_child hs
    by_cases hleaf : ∀ b, v ≠ .ref b
    · have hp : inPath (id :: path) v = false := by
        cases v with
        | ref b => exact absurd rfl (hleaf b)
        | _ => rfl
      rw [serChild, hp, ser_leaf _ _ hleaf] at hnone
      cases hnone
    · push Not at hleaf
      obtain ⟨b, rfl⟩ := hleaf
      have hedge : Edge h id b := hv
      by_cases hb : b ∈ id :: path
      · refine ⟨id, id, rfl, .refl, ?_⟩
        rcases List.mem_cons.1 hb with rfl | hb
        · exact .single hedge
        · exact .head hedge (hpath b hb)
      · have hnone' : ser N h depth (id :: path) (.ref b) = none := by
          rw [serChild, if_neg (mt inPath_ref.1 hb)] at hnone
          exact hnone
        refine .head hedge (ih (id :: path) b (List.nodup_cons.2 ⟨hin, hnodup⟩) ?_ hb ?_ hnone')
        · rw [List.length_cons]
          omega
        · intro a ha
          rcases List.mem_cons.1 ha with rfl | ha
          · exact .single hedge
          · exact .tail (hpath a ha) hedge

theorem acc_of_ser_some (depth : ℕ) : ∀ (path : List (Fin n)) (id : Fin n) (t : List ℕ),
    ser N h depth path (.ref id) = some t → Acc (Function.swap (Edge h)) id := by
  induction depth with
  | zero =>
    intro path id t hs
    cases hs
  | succ depth ih =>
    intro path id t hs
    refine Acc.intro id fun b hb => ?_
    obtain ⟨t', ht'⟩ := Option.ne_none_iff_exists'.1 (ser_some_child hs hb)
    rw [serChild] at ht'
    split_ifs at ht'
    exact ih _ b t' ht'

theorem not_cyclic_of_acc {a : Fin n} (hacc : Acc (Function.swap (Edge h)) a) :
    ¬ Cyclic h (.ref a) := by
  rintro ⟨a', b, heq, hab, hbb⟩
  cases heq
  have hb : Acc (Function.swap (Edge h)) b := by
    clear hbb
    induction hab with
    | refl => exact hacc
    | tail _ hbc ih => exact ih.inv hbc
  have hloop := Relation.transGen_swap.2 hbb
  have htrans := hb.transGen
  clear hb hbb hab
  induction htrans with
  | intro c _ ih => exact ih c hloop hloop

variable (N h) in
theorem ser_eq_none_iff (v : Val n D) : ser N h n [] v = none ↔ Cyclic h v := by
  by_cases hv : ∀ id, v ≠ .ref id
  · rw [ser_leaf n [] hv]
    refine ⟨fun hs => (Option.some_ne_none _ hs).elim, ?_⟩
    rintro ⟨a, _, rfl, -⟩
    exact absurd rfl (hv a)
  · push Not at hv
    obtain ⟨id, rfl⟩ := hv
    constructor
    · exact cyclic_of_ser_none n [] id List.nodup_nil (by simp) List.not_mem_nil (by simp)
    · intro hc
      cases hs : ser N h n [] (.ref id) with
      | none => rfl
      | some t => exact absurd hc (not_cyclic_of_acc (acc_of_ser_some n [] id t hs))

variable (N h) in
/-- The run ends with the error exactly when a cycle can be reached. -/
theorem stringifies_circular_iff (v : Val n D) : Stringifies N h v .circular ↔ Cyclic h v := by
  rw [stringifies_ser, ← ser_eq_none_iff N h v]
  cases ser N h n [] v <;> simp

variable (N h) in
/-- Without a cycle the run ends with a text. -/
theorem stringifies_ok_iff (v : Val n D) :
    (∃ out, Stringifies N h v (.ok out)) ↔ ¬ Cyclic h v := by
  simp only [stringifies_ser]
  rw [← ser_eq_none_iff N h v]
  cases ser N h n [] v <;> simp

end Json

end Qjs
