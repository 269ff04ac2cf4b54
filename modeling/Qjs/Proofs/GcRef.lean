import Qjs.GcRef

/-!
# The GC references are balanced

Each function puts back the record on top and leaves the words of the calls that have not started
(`leaves_…`), but for two: `JS_PrepareBytecode64to32` keeps its record when it fails, and
`js_regexp_exec` pops a record it has not pushed when there is no memory for the captures. So the
functions are balanced exactly in the runs that are `Clean` (`balanced_iff_clean`).
-/

namespace Qjs

namespace GcRef

open Records

/-- The records of the frames from depth `d` on. -/
def frames (d : ℕ) : Set Ref := {r | d ≤ r.1}

theorem frames_succ (d : ℕ) : frames (d + 1) ⊆ frames d := fun _ h => Nat.le_of_succ_le h

theorem mem_frames (d : ℕ) (n : Name) : (d, n) ∈ frames d := le_refl d

theorem not_mem_frames (d : ℕ) (n : Name) : (d, n) ∉ frames (d + 1) := Nat.not_succ_le_self d

/-- The records of the frames from depth `d` on but for one. -/
def framesBut (d : ℕ) (n : Name) : Set Ref := {r | d ≤ r.1 ∧ r ≠ (d, n)}

theorem framesBut_subset (d : ℕ) (n : Name) : framesBut d n ⊆ frames d := fun _ h => h.1

theorem frames_succ_subset (d : ℕ) (n : Name) : frames (d + 1) ⊆ framesBut d n := by
  intro r hr
  refine ⟨Nat.le_of_succ_le hr, ?_⟩
  rintro rfl
  exact not_mem_frames d n hr

theorem mem_framesBut {d : ℕ} {n n' : Name} (h : n' ≠ n) : (d, n') ∈ framesBut d n :=
  ⟨le_refl d, fun heq => h (congrArg Prod.snd heq)⟩

theorem not_mem_framesBut (d : ℕ) (n : Name) : (d, n) ∉ framesBut d n := fun h => h.2 rfl

variable {d : ℕ} {F : Set Ref}

/-! ### Calls -/

theorem leaves_callee (x : Callee) : Leaves F x.left (callee x) := by
  have h := (leaves_move (F := F) (-(x.left : ℤ))).bind (f := fun _ => pure x.failed)
    (leaves_pure _)
  exact h.of_eq (by omega)

theorem callee_val (x : Callee) : (callee x).val = x.failed := rfl

/-- The words that a call leaves. -/
def CallEnd.left (argc : ℕ) : CallEnd → ℕ
  | .notStarted extra => argc + 2 + extra
  | _ => 0

def CallEnd.failed : CallEnd → Bool
  | .returns => false
  | _ => true

theorem leaves_jsCall (argc : ℕ) (e : CallEnd) :
    Leaves F (e.left argc - (argc + 2)) (jsCall argc e) := by
  cases e with
  | returns =>
    have h := (leaves_move (F := F) ((argc : ℤ) + 2)).bind (f := fun _ => pure false)
      (leaves_pure _)
    exact h.of_eq (by simp [CallEnd.left])
  | throws =>
    have h := (leaves_move (F := F) ((argc : ℤ) + 2)).bind (f := fun _ => pure true) (leaves_pure _)
    exact h.of_eq (by simp [CallEnd.left])
  | notStarted extra =>
    have h := (leaves_move (F := F) (-(extra : ℤ))).bind (f := fun _ => pure true) (leaves_pure _)
    exact h.of_eq (by simp [CallEnd.left])

theorem jsCall_val (argc : ℕ) (e : CallEnd) : (jsCall argc e).val = e.failed := by
  cases e <;> rfl

def methodsLeft : List Method → ℕ
  | [] => 0
  | m :: ms => m.get.left +
    if m.get.failed then 0
    else if m.isFunction then
      if m.stackCheck then
        m.call.left 0 + if m.call.failed then 0 else if m.isObject then methodsLeft ms else 0
      else 0
    else methodsLeft ms

theorem leaves_pure_nat {α : Type} (a : α) : Leaves F ((0 : ℕ) : ℤ) (pure a : Prog Ref α) :=
  leaves_pure a

/-- A method called without arguments, while the object is kept. -/
theorem leaves_callMethod {e : CallEnd} {k : ℕ} {f : Bool → Prog Ref Bool}
    (hf : Leaves (frames d) k (f e.failed)) :
    Leaves (frames d) ((e.left 0 + k : ℕ) : ℤ) (do
      move (-2)
      push (d, .val)
      let failed ← jsCall 0 e
      pop (d, .val)
      f failed) := by
  have hcall := (leaves_jsCall (F := ∅) 0 e).bracket (f := f) (Set.notMem_empty _)
    (Set.empty_subset _) (mem_frames d .val) (jsCall_val 0 e ▸ hf)
  exact ((leaves_move (-2)).bind hcall).of_eq (by omega)

theorem leaves_jsToPrimitive : ∀ ms, Leaves (frames d) (methodsLeft ms) (jsToPrimitive d ms)
  | [] => leaves_pure true
  | m :: ms => by
    have ih := leaves_jsToPrimitive ms
    rw [methodsLeft, Nat.cast_add, jsToPrimitive]
    refine (leaves_callee (F := ∅) m.get).bracket (Set.notMem_empty _) (Set.empty_subset _)
      (mem_frames d .val) ?_
    refine leaves_cond (fun _ => leaves_pure_nat true) fun _ => ?_
    refine leaves_cond (fun _ => ?_) fun _ => ih
    refine Leaves.push_push_pop_pop ?_ (by simp) (mem_frames d .method) (mem_frames d .val)
    refine leaves_cond (fun _ => leaves_callMethod ?_) fun _ => leaves_pure_nat true
    refine leaves_cond (fun _ => leaves_pure_nat true) fun _ => ?_
    exact leaves_cond (fun _ => ih) fun _ => leaves_pure_nat false

/-- The words that `JS_Run` leaves. -/
def Run.left (e : Run) : ℕ :=
  if e.closure then if e.stackCheck then e.call.left 0 else 0 else 0

theorem leaves_jsRun (e : Run) : Leaves (frames d) e.left (jsRun d e) := by
  refine leaves_cond (fun _ => ?_) fun _ => leaves_pure_nat true
  refine Leaves.push_pop ?_ (mem_frames d .val)
  refine leaves_cond (fun _ => ?_) fun _ => leaves_pure_nat true
  exact ((leaves_move (-2)).bind (leaves_jsCall 0 e.call)).of_eq (by simp)

/-! ### String buffers -/

/-- Whether the buffer is an exception afterwards. -/
def Append.exc (exc : Bool) (a : Append) : Bool :=
  exc || match a with
    | .fits => false
    | .tooLong => true
    | .resize ok => !ok

theorem stringBufferConcatStr_val (exc : Bool) (a : Append) :
    (stringBufferConcatStr d exc a).val = a.exc exc := by
  cases exc <;> cases a <;> rfl

theorem leaves_stringBufferConcatStr (exc : Bool) (a : Append) :
    Leaves (frames d) 0 (stringBufferConcatStr d exc a) := by
  unfold stringBufferConcatStr
  cases exc with
  | true => exact leaves_pure true
  | false =>
    cases a with
    | fits => exact leaves_pure false
    | tooLong => exact leaves_pure true
    | resize ok =>
      exact (leaves_pure !ok).push_push_pop_pop (by simp) (mem_frames d .val1) (mem_frames d .val2)

def Item.exc (exc : Bool) (x : Item) : Bool := x.toString.failed || x.append.exc exc

def Item.left (x : Item) : ℕ := x.toString.left

theorem stringBufferConcat_val (exc : Bool) (x : Item) :
    (stringBufferConcat d exc x).val = x.exc exc := by
  rw [stringBufferConcat, Prog.bind_val, callee_val, Item.exc]
  cases x.toString.failed with
  | true => rfl
  | false => exact stringBufferConcatStr_val exc x.append

theorem leaves_stringBufferConcat (exc : Bool) (x : Item) :
    Leaves (frames d) x.left (stringBufferConcat d exc x) := by
  have hrest : Leaves (frames d) 0
      (if x.toString.failed then pure true else stringBufferConcatStr d exc x.append) := by
    cases x.toString.failed with
    | true => exact leaves_pure true
    | false => exact leaves_stringBufferConcatStr exc x.append
  exact ((leaves_callee x.toString).bind hrest).of_eq (add_zero _)

def Piece.exc (exc : Bool) : Piece → Bool
  | .skip => exc
  | .noSub => true
  | .append a => a.exc exc

theorem stringBufferPiece_val (exc : Bool) (p : Piece) :
    (stringBufferPiece d exc p).val = p.exc exc := by
  cases p with
  | append a => exact stringBufferConcatStr_val exc a
  | _ => rfl

theorem leaves_stringBufferPiece (exc : Bool) (p : Piece) :
    Leaves (frames d) 0 (stringBufferPiece d exc p) := by
  cases p with
  | skip => exact leaves_pure exc
  | noSub => exact leaves_pure true
  | append a => exact leaves_stringBufferConcatStr exc a

theorem stringBufferPieces_val : ∀ (ps : List Piece) (exc : Bool),
    (stringBufferPieces d exc ps).val = ps.foldl Piece.exc exc
  | [], _ => rfl
  | p :: ps, exc => by
    rw [stringBufferPieces, Prog.bind_val, stringBufferPiece_val, stringBufferPieces_val ps]
    rfl

theorem leaves_stringBufferPieces : ∀ (ps : List Piece) (exc : Bool),
    Leaves (frames d) 0 (stringBufferPieces d exc ps)
  | [], exc => leaves_pure exc
  | p :: ps, exc =>
    (leaves_stringBufferPiece exc p).then (leaves_stringBufferPieces ps _)

/-- The words left by the values until one fails. -/
def itemsLeft (exc : Bool) : List (List Piece × Item) → ℕ
  | [] => 0
  | (ps, x) :: xs => x.left +
    if x.exc (ps.foldl Piece.exc exc) then 0 else itemsLeft (x.exc (ps.foldl Piece.exc exc)) xs

theorem leaves_stringBufferItems : ∀ (xs : List (List Piece × Item)) (exc : Bool),
    Leaves (frames d) (itemsLeft exc xs) (stringBufferItems d exc xs)
  | [], exc => leaves_pure exc
  | (ps, x) :: xs, exc => by
    rw [stringBufferItems]
    refine (leaves_stringBufferPieces ps exc).then ?_
    rw [itemsLeft]
    refine (leaves_stringBufferConcat _ x).bind_nat ?_
    rw [stringBufferConcat_val, stringBufferPieces_val]
    exact leaves_cond (fun _ => leaves_pure_nat true) fun _ => leaves_stringBufferItems xs _

theorem leaves_withBuffer {α : Type} {F F' : Set Ref} {k : ℤ} {m : Prog Ref α}
    (hm : Leaves F' k m) (hr : (d, .buffer) ∉ F') (hF : F' ⊆ F) (hmem : (d, .buffer) ∈ F) :
    Leaves F k (withBuffer d m) :=
  (hm.bracket hr hF hmem (leaves_pure m.val)).of_eq (add_zero k)

theorem leaves_withBuffer_frame {α : Type} {k : ℤ} {m : Prog Ref α}
    (hm : Leaves (frames (d + 1)) k m) : Leaves (frames d) k (withBuffer d m) :=
  leaves_withBuffer hm (not_mem_frames d _) (frames_succ d) (mem_frames d _)

theorem leaves_jsConcatString (isException : Bool) (a₁ a₂ : Append) :
    Leaves (frames d) 0 (jsConcatString d isException a₁ a₂) := by
  unfold jsConcatString
  cases isException with
  | true => exact leaves_pure true
  | false => exact leaves_withBuffer_frame (leaves_stringBufferPieces _ _)

def stringConcatLeft (toString : Callee) (r : Item) (args : List Item) : ℕ :=
  toString.left +
    if toString.failed then 0 else itemsLeft false ((r :: args).map fun x => ([], x))

theorem leaves_jsStringConcat (toString : Callee) (r : Item) (args : List Item) :
    Leaves (frames d) (stringConcatLeft toString r args) (jsStringConcat d toString r args) := by
  refine (leaves_callee toString).bind_nat ?_
  refine leaves_cond (fun _ => leaves_pure_nat true) fun _ => ?_
  exact leaves_withBuffer_frame (leaves_stringBufferItems _ _)

def charCodesLeft : List CharCode → ℕ
  | [] => 0
  | x :: xs => x.toInt.left +
    if x.toInt.failed then 0
    else if x.inRange then if x.append.exc false then 0 else charCodesLeft xs
    else 0

theorem leaves_charCodes : ∀ xs, Leaves (frames d) (charCodesLeft xs) (charCodes d xs)
  | [] => leaves_pure false
  | x :: xs => by
    rw [charCodesLeft, charCodes]
    refine (leaves_callee x.toInt).bind_nat ?_
    refine leaves_cond (fun _ => leaves_pure_nat true) fun _ => ?_
    refine leaves_cond (fun _ => ?_) fun _ => leaves_pure_nat true
    refine (leaves_stringBufferConcatStr false x.append).then ?_
    rw [stringBufferConcatStr_val]
    exact leaves_cond (fun _ => leaves_pure_nat true) fun _ => leaves_charCodes xs

theorem leaves_jsStringFromCharCode (args : List CharCode) :
    Leaves (frames d) (charCodesLeft args) (jsStringFromCharCode d args) :=
  leaves_withBuffer_frame (leaves_charCodes args)

theorem leaves_jsStringToLowerCase (toString : Callee) (alloc : Bool) (chars : List Append) :
    Leaves (frames d) toString.left (jsStringToLowerCase d toString alloc chars) := by
  refine ((leaves_callee toString).bind ?_).of_eq (add_zero _)
  rw [callee_val]
  cases toString.failed with
  | true => exact leaves_pure true
  | false =>
    cases alloc with
    | true => exact leaves_withBuffer_frame (leaves_stringBufferPieces _ _)
    | false => exact leaves_pure true

def Repeat.left (e : Repeat) : ℕ := if e.isString then e.toInt.left else 0

theorem leaves_jsStringRepeat (e : Repeat) : Leaves (frames d) e.left (jsStringRepeat d e) := by
  refine leaves_cond (fun _ => ?_) fun _ => leaves_pure_nat true
  refine ((leaves_callee e.toInt).bind ?_).of_eq (add_zero _)
  rw [callee_val]
  split_ifs
  · exact leaves_pure true
  · exact leaves_pure false
  · exact leaves_withBuffer_frame (leaves_stringBufferPieces _ _)
  · exact leaves_pure true
  · exact leaves_pure true

def ErrorToString.left (e : ErrorToString) : ℕ :=
  if e.isError then e.getName.left +
    if e.getName.failed then 0
    else (e.toString.getD .ok).left +
      if (e.toString.getD .ok).failed then 0
      else e.name.left + (e.message.map fun m => m.2.left).getD 0
  else 0

theorem leaves_jsErrorToString (e : ErrorToString) :
    Leaves (frames d) e.left (jsErrorToString d e) := by
  refine leaves_cond (fun _ => ?_) fun _ => leaves_pure_nat true
  refine (leaves_callee e.getName).bind_nat ?_
  refine leaves_cond (fun _ => leaves_pure_nat true) fun _ => ?_
  refine (leaves_callee (e.toString.getD .ok)).bind_nat ?_
  refine leaves_cond (fun _ => leaves_pure_nat true) fun _ => ?_
  refine leaves_withBuffer_frame ((leaves_stringBufferConcat false e.name).bind_nat ?_)
  cases e.message with
  | none => exact leaves_pure _
  | some m => exact (leaves_stringBufferPiece _ m.1).then (leaves_stringBufferConcat _ m.2)

/-- A separator or a value of `js_array_join`. -/
def optLeft (x : Option Item) : ℕ := (x.map Item.left).getD 0

def optExc (x : Option Item) : Bool := (x.map (Item.exc false)).getD false

theorem leaves_optItem {k : ℕ} {f : Bool → Prog Ref Bool} (x : Option Item)
    (hf : Leaves (frames d) k (f (optExc x))) :
    Leaves (frames d) ((optLeft x + k : ℕ) : ℤ) (do
      let exc ← match x with
        | none => pure false
        | some y => stringBufferConcat d false y
      f exc) := by
  cases x with
  | none => exact (leaves_pure_nat false).bind_nat hf
  | some y =>
    refine (leaves_stringBufferConcat false y).bind_nat ?_
    rw [stringBufferConcat_val]
    exact hf

def joinElemsLeft : List JoinElem → ℕ
  | [] => 0
  | x :: xs => optLeft x.sep +
    if optExc x.sep then 0
    else x.get.left +
      if x.get.failed then 0
      else optLeft x.val + if optExc x.val then 0 else joinElemsLeft xs

theorem leaves_joinElems : ∀ xs, Leaves (frames d) (joinElemsLeft xs) (joinElems d xs)
  | [] => leaves_pure false
  | x :: xs => by
    rw [joinElemsLeft, joinElems]
    refine leaves_optItem x.sep ?_
    refine leaves_cond (fun _ => leaves_pure_nat true) fun _ => ?_
    refine (leaves_callee x.get).bind_nat ?_
    refine leaves_cond (fun _ => leaves_pure_nat true) fun _ => ?_
    refine leaves_optItem x.val ?_
    exact leaves_cond (fun _ => leaves_pure_nat true) fun _ => leaves_joinElems xs

def Join.left (e : Join) : ℕ :=
  if e.isObject then e.length.left +
    if e.length.failed then 0
    else e.sep.left + if e.sep.failed then 0 else joinElemsLeft e.elems
  else 0

theorem leaves_jsArrayJoin (e : Join) : Leaves (frames d) e.left (jsArrayJoin d e) := by
  refine leaves_cond (fun _ => ?_) fun _ => leaves_pure_nat true
  refine (leaves_callee e.length).bind_nat ?_
  refine leaves_cond (fun _ => leaves_pure_nat true) fun _ => ?_
  refine (leaves_callee e.sep).bind_nat ?_
  refine leaves_cond (fun _ => leaves_pure_nat true) fun _ => ?_
  have hbuf : Leaves (framesBut d .sep) (joinElemsLeft e.elems)
      (withBuffer d (joinElems (d + 1) e.elems)) :=
    leaves_withBuffer (leaves_joinElems e.elems) (not_mem_frames d _) (frames_succ_subset d _)
      (mem_framesBut (by simp))
  exact (hbuf.bracket (not_mem_framesBut d _) (framesBut_subset d _) (mem_frames d _)
    (leaves_pure _)).of_eq (add_zero _)

/-! ### The parser -/

def Nest.jumps : Nest → Bool
  | .done => false
  | .error => true
  | .ref body rest => body.jumps || rest.jumps
  | .words _ body rest => body.jumps || rest.jumps

theorem parse_val : ∀ (n : Nest) (d : ℕ), (parse d n).val = n.jumps
  | .done, _ => rfl
  | .error, _ => rfl
  | .ref body rest, d => by
    rw [parse, Prog.bind_val, Prog.bind_val, parse_val body, Nest.jumps]
    cases body.jumps with
    | true => rfl
    | false => exact parse_val rest d
  | .words n body rest, d => by
    rw [parse, Prog.bind_val, Prog.bind_val, parse_val body, Nest.jumps]
    cases body.jumps with
    | true => rfl
    | false => exact parse_val rest d

/-- Records of other frames are not touched, whether or not there is a jump. -/
theorem parse_prev : ∀ (n : Nest) (d : ℕ) (c : Ctx Ref), ∀ r ∉ frames d,
    ((parse d n).act c).prev r = c.prev r
  | .done, _, _, _, _ => rfl
  | .error, _, _, _, _ => rfl
  | .ref body rest, d, c, r, hr => by
    have hr' : r ∉ frames (d + 1) := fun h => hr (frames_succ d h)
    have hpush : ((push (d, .parsed)).act c).prev r = c.prev r := by
      refine Function.update_of_ne ?_ _ _
      rintro rfl
      exact hr (mem_frames d _)
    rw [parse, Prog.bind_act, Prog.bind_act]
    cases (parse (d + 1) body).val with
    | true => exact (parse_prev body (d + 1) _ r hr').trans hpush
    | false =>
      refine (parse_prev rest d _ r hr).trans ?_
      exact (parse_prev body (d + 1) _ r hr').trans hpush
  | .words n body rest, d, c, r, hr => by
    have hr' : r ∉ frames (d + 1) := fun h => hr (frames_succ d h)
    rw [parse, Prog.bind_act, Prog.bind_act]
    cases (parse (d + 1) body).val with
    | true => exact parse_prev body (d + 1) _ r hr'
    | false => exact (parse_prev rest d _ r hr).trans (parse_prev body (d + 1) _ r hr')

/-- Without a jump all that is pushed is popped. -/
theorem leaves_parse : ∀ (n : Nest) (d : ℕ), n.jumps = false → Leaves (frames d) 0 (parse d n)
  | .done, _, _ => leaves_pure false
  | .error, _, h => by cases h
  | .ref body rest, d, h => by
    rw [Nest.jumps, Bool.or_eq_false_iff] at h
    have hb := leaves_parse body (d + 1) h.1
    have hv := parse_val body (d + 1)
    rw [h.1] at hv
    rw [parse, Prog.bind_of_val_false hv]
    exact (hb.bracket (not_mem_frames d _) (frames_succ d) (mem_frames d _)
      (leaves_parse rest d h.2)).of_eq (add_zero 0)
  | .words n body rest, d, h => by
    rw [Nest.jumps, Bool.or_eq_false_iff] at h
    have hb := (leaves_parse body (d + 1) h.1).mono (frames_succ d)
    have hv := parse_val body (d + 1)
    rw [h.1] at hv
    rw [parse, Prog.bind_of_val_false hv]
    refine ((leaves_move (-(n : ℤ))).bind (hb.then
      ((leaves_move (n : ℤ)).bind (leaves_parse rest d h.2)))).of_eq ?_
    omega

def Source.jumps : Source → Bool
  | .json n => n.jumps
  | .regexp n => n.jumps
  | .program filename func prog locals => !filename || !func || prog.jumps || locals.jumps

theorem parseSource_val (src : Source) : (parseSource d src).val = src.jumps := by
  cases src with
  | json n => exact parse_val n (d + 1)
  | regexp n => exact parse_val n (d + 1)
  | program filename func program locals =>
    cases filename with
    | false => rfl
    | true =>
      cases func with
      | false => rfl
      | true =>
        have hp := parse_val program (d + 1)
        have hl := parse_val locals (d + 1)
        simp only [parseSource, if_true, Prog.bind_val, hp]
        rw [Source.jumps]
        cases program.jumps with
        | true => rfl
        | false =>
          simp only [Bool.false_eq_true, if_false, Prog.bind_val, hl]
          cases locals.jumps <;> rfl

theorem parseSource_prev (src : Source) (c : Ctx Ref) :
    ∀ r ∉ frames d, ((parseSource d src).act c).prev r = c.prev r := by
  intro r hr
  have hr' : r ∉ frames (d + 1) := fun h => hr (frames_succ d h)
  cases src with
  | json n => exact parse_prev n (d + 1) c r hr'
  | regexp n => exact parse_prev n (d + 1) c r hr'
  | program filename func program locals =>
    have hpush : ((push (d, .topFunc)).act c).prev r = c.prev r := by
      refine Function.update_of_ne ?_ _ _
      rintro rfl
      exact hr (mem_frames d _)
    cases filename with
    | false => rfl
    | true =>
      cases func with
      | false => rfl
      | true =>
        simp only [parseSource, if_true, Prog.bind_act]
        have hp := fun c => parse_prev program (d + 1) c r hr'
        have hl := fun c => parse_prev locals (d + 1) c r hr'
        cases (parse (d + 1) program).val with
        | true => exact (hp _).trans hpush
        | false =>
          simp only [Bool.false_eq_true, if_false, Prog.bind_act]
          cases (parse (d + 1) locals).val with
          | true => exact ((hl _).trans (hp _)).trans hpush
          | false => exact ((hl _).trans (hp _)).trans hpush

theorem leaves_parseSource (src : Source) (h : src.jumps = false) :
    Leaves (frames d) 0 (parseSource d src) := by
  cases src with
  | json n => exact (leaves_parse n (d + 1) h).mono (frames_succ d)
  | regexp n => exact (leaves_parse n (d + 1) h).mono (frames_succ d)
  | program filename func program locals =>
    simp only [Source.jumps, Bool.or_eq_false_iff, Bool.not_eq_false'] at h
    obtain ⟨⟨⟨rfl, rfl⟩, hp⟩, hl⟩ := h
    have hvp := parse_val program (d + 1)
    have hvl := parse_val locals (d + 1)
    rw [hp] at hvp
    rw [hl] at hvl
    simp only [parseSource, if_true]
    rw [Prog.bind_of_val_false hvp, Prog.bind_of_val_false hvl]
    have hbody : Leaves (frames (d + 1)) 0
        (do let _ ← parse (d + 1) program; parse (d + 1) locals) :=
      (leaves_parse program (d + 1) hp).then (leaves_parse locals (d + 1) hl)
    exact (hbody.bracket (f := fun _ => pure false) (not_mem_frames d _) (frames_succ d)
      (mem_frames d _) (leaves_pure false)).of_eq (add_zero 0)

/-- A syntax error at any point leaves nothing behind. -/
theorem leaves_jsParse2 (src : Source) : Leaves (frames d) 0 (jsParse2 d src) := by
  refine leaves_catching (fun c => parseSource_prev src c) fun hv => ?_
  rw [parseSource_val] at hv
  exact leaves_parseSource src hv

/-- The buffer after the values until one fails. -/
def itemsExc (exc : Bool) : List (List Piece × Item) → Bool
  | [] => exc
  | (ps, x) :: xs =>
    if x.exc (ps.foldl Piece.exc exc) then true else itemsExc (x.exc (ps.foldl Piece.exc exc)) xs

theorem stringBufferItems_val : ∀ (xs : List (List Piece × Item)) (exc : Bool),
    (stringBufferItems d exc xs).val = itemsExc exc xs
  | [], _ => rfl
  | (ps, x) :: xs, exc => by
    rw [stringBufferItems, Prog.bind_val, Prog.bind_val, stringBufferConcat_val,
      stringBufferPieces_val, itemsExc]
    cases x.exc (ps.foldl Piece.exc exc) with
    | true => rfl
    | false => exact stringBufferItems_val xs false

namespace FunctionConstructor

variable (e : FunctionConstructor)

def paramsExc : Bool := itemsExc (e.opening.exc false) e.params

def bodyExc : Bool := itemsExc e.paramsExc e.body

/-- Whether the text of the function is an exception. -/
def textExc : Bool :=
  if e.paramsExc then true else if e.bodyExc then true else e.closing.exc e.bodyExc

def left : ℕ :=
  (itemsLeft (e.opening.exc false) e.params
    + if e.paramsExc then 0 else itemsLeft e.paramsExc e.body)
  + if e.textExc then 0
    else if e.string then if e.source.jumps then 0 else e.run.left
    else 0

theorem leaves_functionText : Leaves (frames d)
    ((itemsLeft (e.opening.exc false) e.params
      + if e.paramsExc then 0 else itemsLeft e.paramsExc e.body : ℕ) : ℤ) (functionText d e) := by
  refine (leaves_stringBufferPiece false e.opening).then ?_
  rw [stringBufferPiece_val]
  refine (leaves_stringBufferItems _ _).bind_nat ?_
  rw [stringBufferItems_val, ← paramsExc]
  refine leaves_cond (fun _ => leaves_pure_nat true) fun _ => ?_
  refine ((leaves_stringBufferItems e.body _).bind ?_).of_eq (add_zero _)
  split_ifs
  · exact leaves_pure true
  · exact leaves_stringBufferPiece _ _

theorem functionText_val : (functionText d e).val = e.textExc := by
  have hb := stringBufferItems_val (d := d) e.body e.paramsExc
  rw [← bodyExc] at hb
  rw [functionText, Prog.bind_val, Prog.bind_val, stringBufferItems_val, stringBufferPiece_val,
    textExc, ← paramsExc]
  split_ifs with hp hbe
  · rfl
  · rw [Prog.bind_val, hb, if_pos hbe]
    rfl
  · rw [Prog.bind_val, hb, if_neg hbe, stringBufferPiece_val]

end FunctionConstructor

theorem leaves_jsFunctionConstructor (e : FunctionConstructor) :
    Leaves (frames d) e.left (jsFunctionConstructor d e) := by
  refine (leaves_withBuffer_frame e.leaves_functionText).bind_nat ?_
  rw [show (withBuffer d (functionText (d + 1) e)).val = e.textExc from e.functionText_val]
  refine leaves_cond (fun _ => leaves_pure_nat true) fun _ => ?_
  refine leaves_cond (fun _ => ?_) fun _ => leaves_pure_nat true
  refine ((leaves_jsParse2 e.source).mono (frames_succ d)).then ?_
  rw [show (jsParse2 (d + 1) e.source).val = e.source.jumps from parseSource_val e.source]
  exact leaves_cond (fun _ => leaves_pure_nat true) fun _ => (leaves_jsRun e.run).mono (frames_succ d)

/-! ### JSON.stringify -/

theorem leaves_jsToQuotedString (exc : Bool) (ps : List Piece) :
    Leaves (frames d) 0 (jsToQuotedString d exc ps) :=
  ((leaves_stringBufferPieces ps exc).bracket (not_mem_frames d _) (frames_succ d) (mem_frames d _)
    (leaves_pure _)).of_eq (add_zero 0)

theorem Callee.left_of_not_failed (x : Callee) (h : x.failed = false) : x.left = 0 := by
  cases x with
  | ok => rfl
  | fail left => cases h

variable (d) in
/-- The records of a run of turns: a run that does not fail takes `n` of them off. -/
def TakesOff (n : ℕ) (m : Prog Ref Bool) : Prop :=
  ∃ k, Leaves (framesBut d .buffer) k m ∧ (m.val = false → k = -(3 * n))

theorem takesOff_true (n : ℕ) : TakesOff d n (pure true) :=
  ⟨0, leaves_pure true, fun h => by cases h⟩

theorem TakesOff.then {n : ℕ} {α : Type} {m : Prog Ref α} {f : α → Prog Ref Bool}
    (hm : Leaves (frames (d + 1)) 0 m) (hf : TakesOff d n (f m.val)) : TakesOff d n (m >>= f) := by
  obtain ⟨k, hk, hv⟩ := hf
  exact ⟨k, (hm.mono (frames_succ_subset d _)).then hk, hv⟩

theorem TakesOff.move_three {n : ℕ} {m : Prog Ref Bool} (hm : TakesOff d n m) :
    TakesOff d (n + 1) (do move 3; m) := by
  obtain ⟨k, hk, hv⟩ := hm
  refine ⟨-3 + k, (leaves_move 3).bind hk, fun h => ?_⟩
  rw [hv h]
  push_cast
  ring

theorem TakesOff.move_neg_three {n : ℕ} {m : Prog Ref Bool} (hm : TakesOff d (n + 1) m) :
    TakesOff d n (do move (-3); m) := by
  obtain ⟨k, hk, hv⟩ := hm
  refine ⟨- -3 + k, (leaves_move (-3)).bind hk, fun h => ?_⟩
  rw [hv h]
  push_cast
  ring

/-- A call that leaves nothing when it does not fail. -/
theorem TakesOff.call {n : ℕ} {k : ℤ} {m : Prog Ref Bool} {f : Bool → Prog Ref Bool}
    (hm : Leaves (frames (d + 1)) k m) (hk : m.val = false → k = 0) (htrue : f true = pure true)
    (hf : TakesOff d n (f false)) : TakesOff d n (m >>= f) := by
  have hm' := hm.mono (frames_succ_subset d .buffer)
  cases hv : m.val with
  | true =>
    have hrest : Leaves (framesBut d .buffer) 0 (f m.val) := by
      rw [hv, htrue]
      exact leaves_pure true
    refine ⟨k + 0, hm'.bind hrest, fun h => ?_⟩
    rw [Prog.bind_val, hv, htrue] at h
    cases h
  | false =>
    obtain ⟨k', hk', hval⟩ := hf
    have hrest : Leaves (framesBut d .buffer) k' (f m.val) := by
      rw [hv]
      exact hk'
    refine ⟨k + k', hm'.bind hrest, fun h => ?_⟩
    rw [Prog.bind_val, hv] at h
    rw [hk hv, hval h, zero_add]

theorem TakesOff.bracket {n : ℕ} {α : Type} {m : Prog Ref α} {f : α → Prog Ref Bool}
    (hm : Leaves (frames (d + 1)) 0 m) (hf : TakesOff d n (f m.val)) :
    TakesOff d n (do push (d, .val); let a ← m; pop (d, .val); f a) := by
  obtain ⟨k, hk, hv⟩ := hf
  refine ⟨k, ?_, hv⟩
  exact (hm.bracket (not_mem_frames d _) (frames_succ_subset d _) (mem_framesBut (by simp))
    hk).of_eq (zero_add k)

theorem takesOff_jsonTurns : ∀ (ts : List Turn) (n : ℕ) (exc : Bool),
    TakesOff d n (jsonTurns d n exc ts)
  | ts, 0, exc => by
    refine ⟨0, ?_, fun _ => rfl⟩
    cases ts <;> exact leaves_pure false
  | [], n + 1, exc => by
    rw [jsonTurns]
    refine ⟨-(3 * (n + 1)), ?_, fun _ => by push_cast; ring⟩
    exact ((leaves_move _).bind (leaves_pure false)).of_eq (by ring)
  | .text x :: ts, n + 1, exc => by
    rw [jsonTurns]
    refine TakesOff.call (leaves_stringBufferConcat exc x) ?_ rfl
      (takesOff_jsonTurns ts n _).move_three
    intro hv
    rw [stringBufferConcat_val, Item.exc, Bool.or_eq_false_iff] at hv
    exact congrArg Nat.cast (x.toString.left_of_not_failed hv.1)
  | .null p :: ts, n + 1, exc => by
    rw [jsonTurns]
    exact .then (leaves_stringBufferPiece exc p) (takesOff_jsonTurns ts n _).move_three
  | .string ps :: ts, n + 1, exc => by
    rw [jsonTurns]
    exact .then (leaves_jsToQuotedString exc ps) (takesOff_jsonTurns ts n _).move_three
  | .endArray ps :: ts, n + 1, exc => by
    rw [jsonTurns]
    exact .then (leaves_stringBufferPieces ps exc) (takesOff_jsonTurns ts n _).move_three
  | .elem ps stackCheck circular :: ts, n + 1, exc => by
    rw [jsonTurns]
    refine .then (leaves_stringBufferPieces ps exc) ?_
    split_ifs
    · exact (takesOff_jsonTurns ts (n + 2) _).move_neg_three
    · exact takesOff_true _
  | .object start gets next :: ts, n + 1, exc => by
    rw [jsonTurns]
    refine .then (leaves_stringBufferPieces _ exc) ?_
    refine TakesOff.call (leaves_untilFail callee_val leaves_callee _) ?_ rfl ?_
    · intro hv
      rw [untilFail_val callee_val] at hv
      rw [leftUntilFail_eq Callee.left_of_not_failed _ hv, Nat.zero_mul]
      rfl
    · cases next with
      | inr p => exact .then (leaves_stringBufferPiece _ p) (takesOff_jsonTurns ts n _).move_three
      | inl q =>
        refine TakesOff.bracket ?_ ?_
        · exact (leaves_stringBufferPiece _ q.comma).then
            ((leaves_jsToQuotedString _ q.name).then (leaves_stringBufferPiece _ q.colon))
        · split_ifs
          · exact (takesOff_jsonTurns ts (n + 2) _).move_neg_three
          · exact takesOff_true _

theorem leaves_jsJsonStringify (stackCheck : Bool) (turns : List Turn) :
    Leaves (frames d) 0 (jsJsonStringify d stackCheck turns) := by
  refine leaves_withBuffer ?_ (not_mem_framesBut d _) (framesBut_subset d _) (mem_frames d _)
  have htakes : TakesOff d 0
      (if stackCheck then (do move (-3); jsonTurns d 1 false turns) else pure true) := by
    split_ifs
    · exact (takesOff_jsonTurns turns 1 false).move_neg_three
    · exact takesOff_true 0
  obtain ⟨k, hk, hv⟩ := htakes
  exact hk.resetting fun h => (hv h).trans (by simp)

/-! ### Regular expressions -/

/-- The jump to `fail` before the record is pushed. -/
def Exec.NotPushed (e : Exec) : Prop :=
  e.isRegexp = true ∧ e.toString.failed = false ∧ e.alloc = false

def Exec.left (e : Exec) : ℕ := if e.isRegexp then e.toString.left else 0

theorem leaves_execCapture (x : Capture) : Leaves (framesBut d .captureBuf) 0 (execCapture d x) := by
  cases x with
  | undefined => exact leaves_pure false
  | defined sub stackCheck =>
    exact (leaves_pure !sub).push_pop (mem_framesBut (by simp))

theorem leaves_execResult (e : Exec) : Leaves (framesBut d .captureBuf) 0 (execResult d e) := by
  unfold execResult
  cases e.result with
  | error => exact leaves_pure true
  | noMatch => exact leaves_pure false
  | found =>
    cases e.magic with
    | search => exact leaves_pure false
    | test => exact leaves_pure false
    | exec =>
      have hcaptures := leaves_untilFail_zero (leaves_execCapture (d := d)) e.captures
      simp only [execArray]
      split_ifs
      · refine Leaves.push_pop ?_ (mem_framesBut (by simp))
        refine Leaves.push_pop ?_ (mem_framesBut (by simp))
        exact hcaptures
      · refine Leaves.push_pop ?_ (mem_framesBut (by simp))
        refine Leaves.push_pop ?_ (mem_framesBut (by simp))
        exact leaves_pure true
      · refine Leaves.push_pop ?_ (mem_framesBut (by simp))
        exact leaves_pure true
      · exact leaves_pure true

theorem leaves_jsRegexpExec (e : Exec) (h : ¬ e.NotPushed) :
    Leaves (frames d) e.left (jsRegexpExec d e) := by
  refine leaves_cond (fun hre => ?_) fun _ => leaves_pure_nat true
  refine ((leaves_callee e.toString).bind ?_).of_eq (add_zero _)
  rw [callee_val]
  cases hs : e.toString.failed with
  | true => exact leaves_pure true
  | false =>
    cases ha : e.alloc with
    | true =>
      exact ((leaves_execResult e).bracket (not_mem_framesBut d _) (framesBut_subset d _)
        (mem_frames d _) (leaves_pure _)).of_eq (add_zero 0)
    | false => exact absurd ⟨hre, hs, ha⟩ h

/-- The record that was in the frame before comes on top. -/
theorem jsRegexpExec_of_notPushed {e : Exec} (h : e.NotPushed) (c : Ctx Ref) :
    ((jsRegexpExec d e).act c).top = c.prev (d, .captureBuf)
      ∧ ((jsRegexpExec d e).act c).sp = c.sp ∧ ((jsRegexpExec d e).act c).prev = c.prev := by
  obtain ⟨hre, hs, ha⟩ := h
  have hleft := e.toString.left_of_not_failed hs
  rw [jsRegexpExec, if_pos hre, Prog.bind_act, callee_val, hs, ha]
  refine ⟨rfl, ?_, rfl⟩
  have := (leaves_callee (F := ∅) e.toString).sp c
  rw [hleft] at this
  exact this.trans (sub_zero _)

/-! ### String.prototype.replace -/

def Capture.failed : Capture → Bool
  | .undefined => false
  | .defined sub stackCheck => !(sub && stackCheck)

def Capture.pushed (x : Capture) : ℕ := if x.failed then 0 else 1

theorem pushCapture_val (x : Capture) : (pushCapture d x).val = x.failed := by
  cases x with
  | undefined => rfl
  | defined sub stackCheck => cases sub <;> cases stackCheck <;> rfl

theorem leaves_pushCapture (x : Capture) : Leaves (frames d) x.pushed (pushCapture d x) := by
  have hone : Leaves (frames d) ((1 : ℕ) : ℤ) (do move (-1); pure false) :=
    ((leaves_move (-1)).bind (leaves_pure false)).of_eq (by simp)
  cases x with
  | undefined => exact hone
  | defined sub stackCheck =>
    cases sub with
    | false => exact leaves_pure true
    | true =>
      refine Leaves.push_pop ?_ (mem_frames d .val)
      cases stackCheck with
      | false => exact leaves_pure true
      | true => exact hone

/-- What is pushed for the groups. -/
def Subst.groups (e : Subst) : List Capture := e.captures.getD [.undefined]

def Subst.left (e : Subst) : ℕ :=
  if e.isFunction then
    if e.stackCheck then
      if e.groups.any Capture.failed then 2 + leftUntilFail Capture.failed Capture.pushed e.groups
      else e.call.left (2 + e.groups.length) + if e.call.failed then 0 else e.result.left
    else 0
  else 0

theorem leaves_jsStringConcatSubst (exc : Bool) (e : Subst) :
    Leaves (frames d) e.left (jsStringConcatSubst d exc e) := by
  refine leaves_cond (fun _ => ?_) fun _ => (leaves_stringBufferPieces _ exc).mono (frames_succ d)
  refine leaves_cond (fun _ => ?_) fun _ => leaves_pure_nat exc
  have hgroups := leaves_untilFail pushCapture_val (leaves_pushCapture (d := d)) e.groups
  have hval := untilFail_val (pushCapture_val (d := d)) e.groups
  cases hany : e.groups.any Capture.failed with
  | true =>
    rw [hany] at hval
    have hrest := hgroups.bind (f := fun failed =>
      if failed then pure exc
      else do
        move (-2)
        let failed ← jsCall (2 + e.groups.length) e.call
        if failed then pure exc else stringBufferConcat (d + 1) exc e.result) (by
          rw [hval]
          exact leaves_pure exc)
    refine ((leaves_move (-2)).bind hrest).of_eq ?_
    simp
  | false =>
    rw [hany] at hval
    have hone : ∀ x : Capture, x.failed = false → x.pushed = 1 := by
      intro x hx
      rw [Capture.pushed, hx]
      rfl
    have hlen := leftUntilFail_eq hone _ hany
    have hcall : Leaves (frames d)
        ((if e.call.failed then 0 else e.result.left : ℕ) : ℤ)
        (if (jsCall (2 + e.groups.length) e.call).val then pure exc
          else stringBufferConcat (d + 1) exc e.result) := by
      rw [jsCall_val]
      exact leaves_cond (fun _ => leaves_pure_nat exc) fun _ =>
        (leaves_stringBufferConcat exc e.result).mono (frames_succ d)
    have hrest := hgroups.bind (f := fun failed =>
      if failed then pure exc
      else do
        move (-2)
        let failed ← jsCall (2 + e.groups.length) e.call
        if failed then pure exc else stringBufferConcat (d + 1) exc e.result) (by
          rw [hval]
          exact (leaves_move (-2)).bind ((leaves_jsCall _ e.call).bind hcall))
    refine ((leaves_move (-2)).bind hrest).of_eq ?_
    rw [hlen, if_neg Bool.false_ne_true]
    push_cast
    ring

def matchesLeft (ms : List Match) : ℕ := (ms.map fun m => m.subst.left).sum

theorem leaves_replaceMatches : ∀ (ms : List Match) (exc : Bool),
    Leaves (frames (d + 1)) (matchesLeft ms) (replaceMatches d exc ms)
  | [], exc => leaves_pure exc
  | m :: ms, exc => by
    rw [matchesLeft, List.map_cons, List.sum_cons, replaceMatches]
    refine (leaves_stringBufferPiece exc m.before).then ?_
    exact (leaves_jsStringConcatSubst _ m.subst).bind_nat (leaves_replaceMatches ms _)

def Replace.left (e : Replace) : ℕ :=
  leftUntilFail Callee.failed Callee.left [e.this, e.pattern, e.replacement] +
    if [e.this, e.pattern, e.replacement].any Callee.failed then 0
    else if e.isRegexp then if e.alloc then matchesLeft e.found else 0
    else matchesLeft e.found

theorem leaves_jsStringReplace (e : Replace) : Leaves (frames d) e.left (jsStringReplace d e) := by
  refine (leaves_untilFail callee_val leaves_callee _).bind_nat ?_
  rw [untilFail_val callee_val]
  refine leaves_cond (fun _ => leaves_pure_nat true) fun _ => ?_
  refine leaves_withBuffer ?_ (not_mem_framesBut d _) (framesBut_subset d _) (mem_frames d _)
  have hpiece : ∀ exc, Leaves (framesBut d .buffer) 0 (stringBufferPiece (d + 1) exc e.after) :=
    fun exc => (leaves_stringBufferPiece exc e.after).mono (frames_succ_subset d _)
  refine leaves_cond (fun _ => ?_) fun _ => ?_
  · refine leaves_cond (fun _ => ?_) fun _ => leaves_pure_nat true
    refine ((leaves_replaceMatches e.found false).bracket (not_mem_frames d _)
      (frames_succ_subset d _) (mem_framesBut (by simp)) ?_).of_eq (add_zero _)
    split_ifs
    · exact leaves_pure true
    · exact hpiece _
  · have hmatches := (leaves_replaceMatches (d := d) e.found false).mono
      (frames_succ_subset d .buffer)
    split_ifs with hempty
    · rw [List.isEmpty_iff.1 hempty]
      exact leaves_pure false
    · exact (hmatches.bind (f := fun exc => stringBufferPiece (d + 1) exc e.after)
        (hpiece _)).of_eq (add_zero _)

/-! ### Entry points -/

/-- The words that are left by calls that have not started, or by a replacement that fails while its
arguments are pushed. -/
def Entry.left : Entry → ℕ
  | .regexpExec e => e.left
  | .stringReplace e => e.left
  | .functionConstructor e => e.left
  | .arrayJoin e => e.left
  | .errorToString e => e.left
  | .stringRepeat e => e.left
  | .stringToLowerCase toString _ _ => toString.left
  | .stringFromCharCode args => charCodesLeft args
  | .stringConcat toString r args => stringConcatLeft toString r args
  | .toPrimitive ms => methodsLeft ms
  | .run e => e.left
  | _ => 0

/-- Nothing is left, `JS_PrepareBytecode64to32` does not fail, and `js_regexp_exec` has memory for the
captures or finds the record on top in the record it has not pushed. -/
def Entry.Clean (d : ℕ) (c : Ctx Ref) (e : Entry) : Prop :=
  e.left = 0 ∧ match e with
    | .prepareBytecode64to32 expand compact => expand = true ∧ compact = true
    | .regexpExec e => e.NotPushed → c.prev (d, .captureBuf) = c.top
    | _ => True

/-- The record on top and the stack pointer are what they were. -/
def Balanced (d : ℕ) (c : Ctx Ref) (e : Entry) : Prop :=
  ((e.prog d).act c).top = c.top ∧ ((e.prog d).act c).sp = c.sp

theorem balanced_of_leaves {c : Ctx Ref} {e : Entry} (h : Leaves (frames d) e.left (e.prog d)) :
    Balanced d c e ↔ e.left = 0 := by
  unfold Balanced
  rw [h.top, h.sp]
  simp

theorem not_pushed_top {c : Ctx Ref} {l : List Ref} (hl : Linked.IsLinked c.prev c.top l)
    (hlive : ∀ r ∈ l, r.1 < d) (n : Name) : c.top ≠ some (d, n) := by
  intro htop
  cases l with
  | nil =>
    rw [Linked.isLinked_nil.1 hl] at htop
    cases htop
  | cons r l =>
    obtain ⟨hr, -⟩ := Linked.isLinked_cons.1 hl
    rw [hr] at htop
    cases htop
    exact absurd (hlive _ List.mem_cons_self) (lt_irrefl d)

/-- A function that starts with records of live frames only is balanced exactly when its run is clean,
and then a collection walks the same records as before. -/
theorem balanced_iff_clean (d : ℕ) (e : Entry) (c : Ctx Ref) (l : List Ref)
    (hl : Linked.IsLinked c.prev c.top l) (hlive : ∀ r ∈ l, r.1 < d) :
    (Balanced d c e ↔ e.Clean d c)
      ∧ (e.Clean d c →
        Linked.IsLinked ((e.prog d).act c).prev ((e.prog d).act c).top l) := by
  have hout : ∀ r ∈ l, r ∉ frames d := fun r hr => Nat.not_le.2 (hlive r hr)
  have hordinary : Leaves (frames d) e.left (e.prog d) → (e.Clean d c ↔ e.left = 0) →
      (Balanced d c e ↔ e.Clean d c)
        ∧ (e.Clean d c →
          Linked.IsLinked ((e.prog d).act c).prev ((e.prog d).act c).top l) := by
    intro h hclean
    exact ⟨(balanced_of_leaves h).trans hclean.symm, fun _ => h.isLinked hl hout⟩
  cases e with
  | prepareBytecode64to32 expand compact =>
    by_cases hok : expand = true ∧ compact = true
    · refine hordinary ?_ (by simp [Entry.Clean, Entry.left, hok])
      obtain ⟨rfl, rfl⟩ := hok
      exact (leaves_pure false).push_pop (mem_frames d _)
    · have htop : (((Entry.prepareBytecode64to32 expand compact).prog d).act c).top
          = some (d, .evalCode) := by
        cases expand with
        | false => rfl
        | true =>
          cases compact with
          | false => rfl
          | true => exact absurd ⟨rfl, rfl⟩ hok
      refine ⟨⟨fun h => ?_, fun h => absurd h.2 hok⟩, fun h => absurd h.2 hok⟩
      exact absurd (h.1.symm.trans htop) (not_pushed_top hl hlive _)
  | regexpExec e =>
    by_cases hp : e.NotPushed
    · obtain ⟨htop, hsp, hprev⟩ := jsRegexpExec_of_notPushed (d := d) hp c
      have hleft : e.left = 0 := by
        rw [Exec.left, if_pos hp.1]
        exact e.toString.left_of_not_failed hp.2.1
      refine ⟨⟨fun h => ⟨hleft, fun _ => htop.symm.trans h.1⟩, fun h => ⟨?_, hsp⟩⟩, fun h => ?_⟩
      · exact htop.trans (h.2 hp)
      · show Linked.IsLinked ((jsRegexpExec d e).act c).prev ((jsRegexpExec d e).act c).top l
        rw [htop, hprev, h.2 hp]
        exact hl
    · exact hordinary (leaves_jsRegexpExec e hp) (by simp [Entry.Clean, hp])
  | parse2 src => exact hordinary (leaves_jsParse2 src) (iff_of_eq (and_true _))
  | stringReplace e => exact hordinary (leaves_jsStringReplace e) (iff_of_eq (and_true _))
  | jsonStringify stackCheck turns =>
    exact hordinary (leaves_jsJsonStringify stackCheck turns) (iff_of_eq (and_true _))
  | functionConstructor e => exact hordinary (leaves_jsFunctionConstructor e) (iff_of_eq (and_true _))
  | arrayJoin e => exact hordinary (leaves_jsArrayJoin e) (iff_of_eq (and_true _))
  | errorToString e => exact hordinary (leaves_jsErrorToString e) (iff_of_eq (and_true _))
  | stringRepeat e => exact hordinary (leaves_jsStringRepeat e) (iff_of_eq (and_true _))
  | stringToLowerCase toString alloc chars =>
    exact hordinary (leaves_jsStringToLowerCase toString alloc chars) (iff_of_eq (and_true _))
  | stringFromCharCode args =>
    exact hordinary (leaves_jsStringFromCharCode args) (iff_of_eq (and_true _))
  | stringConcat toString r args =>
    exact hordinary (leaves_jsStringConcat toString r args) (iff_of_eq (and_true _))
  | concatString isException a₁ a₂ =>
    exact hordinary (leaves_jsConcatString isException a₁ a₂) (iff_of_eq (and_true _))
  | toPrimitive ms => exact hordinary (leaves_jsToPrimitive ms) (iff_of_eq (and_true _))
  | run e => exact hordinary (leaves_jsRun e) (iff_of_eq (and_true _))

/-- A context with one record, in the frame of depth 0. -/
def oneRecord : Ctx Ref := ⟨some (0, .val), fun _ => none, 0⟩

theorem balanced_iff_clean_parse_error :
    Balanced 1 oneRecord (.parse2 (.json (.words 3 (.ref .error .done) .done)))
      ∧ ¬ Balanced 1 oneRecord (.prepareBytecode64to32 true false) := by
  have hl : Linked.IsLinked oneRecord.prev oneRecord.top [(0, .val)] := ⟨rfl, trivial⟩
  have hlive : ∀ r ∈ [((0 : ℕ), Name.val)], r.1 < 1 := by simp
  refine ⟨?_, ?_⟩
  · exact (balanced_iff_clean 1 _ oneRecord _ hl hlive).1.2 ⟨rfl, trivial⟩
  · rw [(balanced_iff_clean 1 _ oneRecord _ hl hlive).1]
    rintro ⟨-, -, h⟩
    cases h

/-- A call of `String.prototype.replace` with a function that runs out of memory for the group of the
first match. -/
def replaceNoMemory : Replace where
  this := .ok
  pattern := .ok
  replacement := .ok
  isRegexp := true
  alloc := true
  found := [⟨.skip, ⟨true, true, some [.defined false true], .returns, ⟨.ok, .fits⟩, []⟩⟩]
  execFails := false
  after := .skip

/-- `RegExp.prototype.exec` without memory for the captures. -/
def execNoMemory : Exec where
  isRegexp := true
  toString := .ok
  alloc := false
  magic := .exec
  result := .noMatch
  newArray := true
  defineIndex := true
  defineInput := true
  captures := []

theorem not_balanced_no_memory :
    ¬ Balanced 1 oneRecord (.prepareBytecode64to32 false true)
      ∧ ¬ Balanced 1 oneRecord (.regexpExec execNoMemory)
      ∧ ¬ Balanced 1 oneRecord (.stringReplace replaceNoMemory) := by
  refine ⟨?_, ?_, ?_⟩
  · intro h
    cases h.1
  · intro h
    cases h.1
  · intro h
    cases h.2

end GcRef

end Qjs
