import Qjs.Alloc

/-!
# What the allocator leaves free

A request that succeeds leaves `min_free_size` bytes between the heap and the stack
(`jsMalloc_some`, `jsStackCheck_true`), and one that fails leaves `stack_bottom` where it was and
`heap_free` no further than the critical reserve (`Failed`): the error object is built there.
Both need the 32-bit sum of the request to be exact and, where pointers have 32 bits, the new
bottom of the stack to be above the heap.
-/

namespace Qjs

/-- User addresses: with 64 bits they are far below the sign bit. -/
def addrLimit : Arch → ℤ
  | .jsw4 => 2 ^ 32
  | .jsw8 => 2 ^ 62

/-- The states the allocator is called in. -/
structure JSContext.Valid (a : Arch) (c : JSContext) : Prop where
  heapFree_nonneg : 0 ≤ c.heapFree
  heapFree_le : c.heapFree ≤ c.stackBottom
  stackBottom_lt : c.stackBottom < addrLimit a
  sp_nonneg : 0 ≤ c.sp
  sp_lt : c.sp < addrLimit a
  minFreeSize_eq : c.minFreeSize = if c.inOutOfMemory then jsMinCriticalFreeSize else jsMinFreeSize

/-- The bottom `p` of the stack and the byte count `size` of a request are free of the
wrap-arounds of `check_free_mem`. -/
structure Exact (a : Arch) (c : JSContext) (p size : ℤ) : Prop where
  size_nonneg : 0 ≤ size
  sum_lt : size + c.minFreeSize < 2 ^ 32
  heapFree_le : a = .jsw4 → c.heapFree ≤ p
  lo : -2 ^ 62 ≤ p
  hi : p < addrLimit a

/-- What a failed request may have done: built an error object above the critical reserve. -/
structure Failed (c c' : JSContext) : Prop where
  stackBottom_eq : c'.stackBottom = c.stackBottom
  sp_eq : c'.sp = c.sp
  minFreeSize_eq : c'.minFreeSize = c.minFreeSize
  inOutOfMemory_eq : c'.inOutOfMemory = c.inOutOfMemory
  heapFree_nonneg : 0 ≤ c'.heapFree
  heapFree_le : c'.heapFree ≤ c.heapFree ∨ c'.heapFree + jsMinCriticalFreeSize ≤ c.stackBottom

variable {a : Arch} {rt : Runtime} {c c' : JSContext}

theorem minFreeSize_bounds (h : c.Valid a) : 256 ≤ c.minFreeSize ∧ c.minFreeSize ≤ 512 := by
  rw [h.minFreeSize_eq, jsMinCriticalFreeSize, jsMinFreeSize]
  split_ifs <;> omega

/-- A comparison that is free of wrap-arounds is the one of the addresses. -/
theorem ptrDiffLess_eq_false {p q u : ℤ} (hq : 0 ≤ q) (hq' : q < addrLimit a) (hu : 0 ≤ u)
    (h4 : a = .jsw4 → q ≤ p) (hlo : -2 ^ 62 ≤ p) (hhi : p < addrLimit a)
    (h : ptrDiffLess a (wrapPtr a p) q u = false) : q + u ≤ p := by
  cases a with
  | jsw4 =>
    have h4 := h4 rfl
    have hd := of_decide_eq_false h
    simp only [wrapPtr, addrLimit, Arch.bits, Arch.jsw] at *
    omega
  | jsw8 =>
    have hd := of_decide_eq_false h
    simp only [wrapPtr, addrLimit, Arch.bits, Arch.jsw, Int.bmod] at *
    split_ifs at hd <;> omega

theorem jsGC_heapFree_le (c : JSContext) : (jsGC rt c).heapFree ≤ c.heapFree := rt.gc_le c

theorem JSContext.Valid.jsGC (h : c.Valid a) : (Qjs.jsGC rt c).Valid a where
  heapFree_nonneg := rt.gc_nonneg c h.heapFree_nonneg
  heapFree_le := (rt.gc_le c).trans h.heapFree_le
  stackBottom_lt := h.stackBottom_lt
  sp_nonneg := h.sp_nonneg
  sp_lt := h.sp_lt
  minFreeSize_eq := h.minFreeSize_eq

/-- A check that passes has moved `heap_free` down, if at all, and found the room. -/
theorem checkFreeMem_true {throw : JSContext → JSContext} {p size : ℤ} (h : c.Valid a)
    (hx : Exact a c p size)
    (hr : checkFreeMem a rt throw c (wrapPtr a p) size = (true, c')) :
    c' = { c with heapFree := c'.heapFree } ∧ 0 ≤ c'.heapFree ∧ c'.heapFree ≤ c.heapFree
      ∧ c'.heapFree + size + c.minFreeSize ≤ p := by
  have hm := minFreeSize_bounds h
  have hs := hx.size_nonneg
  have hsum : uint32 (size + c.minFreeSize) = size + c.minFreeSize := by
    have := hx.sum_lt
    rw [uint32]
    omega
  have hlim : c.heapFree < addrLimit a := h.heapFree_le.trans_lt h.stackBottom_lt
  simp only [checkFreeMem] at hr
  split_ifs at hr with h1 h2
  · cases hr
  · obtain rfl := (Prod.mk.inj hr).2
    have hg : (jsGC rt c).heapFree ≤ c.heapFree := jsGC_heapFree_le c
    have hgn : 0 ≤ (jsGC rt c).heapFree := h.jsGC.heapFree_nonneg
    have h4 : a = .jsw4 → (jsGC rt c).heapFree ≤ p := fun ha => hg.trans (hx.heapFree_le ha)
    refine ⟨rfl, hgn, hg, ?_⟩
    rw [Bool.not_eq_true] at h2
    have h2' : ptrDiffLess a (wrapPtr a p) (jsGC rt c).heapFree (size + c.minFreeSize) = false := by
      rw [← hsum]
      exact h2
    have := ptrDiffLess_eq_false hgn (hg.trans_lt hlim) (by omega) h4 hx.lo hx.hi h2'
    omega
  · obtain rfl := (Prod.mk.inj hr).2
    rw [Bool.not_eq_true, hsum] at h1
    refine ⟨rfl, h.heapFree_nonneg, le_rfl, ?_⟩
    have := ptrDiffLess_eq_false h.heapFree_nonneg hlim (by omega) hx.heapFree_le hx.lo hx.hi h1
    omega

theorem checkFreeMem_false {throw : JSContext → JSContext} {b size : ℤ}
    (hr : checkFreeMem a rt throw c b size = (false, c')) : c' = throw (jsGC rt c) := by
  simp only [checkFreeMem] at hr
  split_ifs at hr
  · exact (Prod.mk.inj hr).2.symm
  · cases hr
  · cases hr

/-! ### `js_malloc` -/

/-- The size asked for survives the rounding and the sum with `min_free_size`. -/
def SizeExact (a : Arch) (c : JSContext) (size : ℤ) : Prop :=
  0 ≤ size ∧ size + a.jsw - 1 + c.minFreeSize < 2 ^ 32

theorem roundSize_bounds {size : ℤ} (h0 : 0 ≤ size) (h : size + a.jsw - 1 < 2 ^ 32) :
    size ≤ roundSize a size ∧ roundSize a size ≤ size + a.jsw - 1 := by
  cases a <;> simp only [roundSize, uint32, Arch.jsw] at * <;> omega

theorem wrapPtr_eq_self {p : ℤ} (h0 : 0 ≤ p) (h : p < addrLimit a) : wrapPtr a p = p := by
  cases a <;> simp only [wrapPtr, addrLimit, Arch.bits, Arch.jsw] at * <;> omega

theorem exact_malloc {size : ℤ} (h : c.Valid a) (hs : SizeExact a c size) :
    Exact a c c.stackBottom (roundSize a size) := by
  obtain ⟨h0, hlt⟩ := hs
  have hm := minFreeSize_bounds h
  obtain ⟨h1, h2⟩ := roundSize_bounds (a := a) h0 (by omega)
  have hf := h.heapFree_nonneg
  have hl := h.heapFree_le
  exact ⟨by omega, by omega, fun _ => hl, by omega, h.stackBottom_lt⟩

/-- A block has been taken: nothing but `heap_free` has moved, and the minimum is still free. -/
theorem jsMallocWith_some {throw : JSContext → JSContext} {size q : ℤ} (h : c.Valid a)
    (hs : SizeExact a c size) (hr : jsMallocWith a rt throw c size = (some q, c')) :
    c' = { c with heapFree := c'.heapFree } ∧ 0 ≤ c'.heapFree
      ∧ c'.heapFree + c.minFreeSize ≤ c.stackBottom ∧ q + size ≤ c'.heapFree ∧ q ≤ c.heapFree := by
  have hx := exact_malloc h hs
  obtain ⟨h0, hlt⟩ := hs
  have hm := minFreeSize_bounds h
  obtain ⟨h1, h2⟩ := roundSize_bounds (a := a) h0 (by omega)
  have hf := h.heapFree_nonneg
  have hl := h.heapFree_le
  have hsb := h.stackBottom_lt
  simp only [jsMallocWith] at hr
  split_ifs at hr with hz
  · cases hr
  rw [← wrapPtr_eq_self (by omega) hsb] at hr
  rcases hc : checkFreeMem a rt throw c (wrapPtr a c.stackBottom) (roundSize a size) with ⟨_ | _, c1⟩
  · rw [hc] at hr
    cases hr
  · rw [hc] at hr
    obtain ⟨hc1, hn1, hle1, hfree⟩ := checkFreeMem_true h hx hc
    have hw : wrapPtr a (c1.heapFree + roundSize a size) = c1.heapFree + roundSize a size :=
      wrapPtr_eq_self (by omega) (by omega)
    cases hr
    rw [hw]
    refine ⟨?_, by simp only; omega, by simp only; omega, by simp only; omega, hle1⟩
    rw [hc1]

theorem jsMallocWith_none {throw : JSContext → JSContext} {size : ℤ}
    (hr : jsMallocWith a rt throw c size = (none, c')) :
    c' = c ∨ c' = throw (jsGC rt c) := by
  simp only [jsMallocWith] at hr
  split_ifs at hr with hz
  · exact .inl (Prod.mk.inj hr).2.symm
  · rcases hc : checkFreeMem a rt throw c c.stackBottom (roundSize a size) with ⟨_ | _, c1⟩
    · rw [hc] at hr
      rw [← (Prod.mk.inj hr).2]
      exact .inr (checkFreeMem_false hc)
    · rw [hc] at hr
      cases hr

/-! ### The error object -/

theorem Failed.refl (h : 0 ≤ c.heapFree) : Failed c c := ⟨rfl, rfl, rfl, rfl, h, .inl le_rfl⟩

theorem Failed.trans {c₁ c₂ c₃ : JSContext} (h : Failed c₁ c₂) (h' : Failed c₂ c₃) :
    Failed c₁ c₃ where
  stackBottom_eq := h'.stackBottom_eq.trans h.stackBottom_eq
  sp_eq := h'.sp_eq.trans h.sp_eq
  minFreeSize_eq := h'.minFreeSize_eq.trans h.minFreeSize_eq
  inOutOfMemory_eq := h'.inOutOfMemory_eq.trans h.inOutOfMemory_eq
  heapFree_nonneg := h'.heapFree_nonneg
  heapFree_le := by
    have h1 := h.heapFree_le
    have h2 := h'.heapFree_le
    rw [h.stackBottom_eq] at h2
    omega

theorem Failed.valid (h : Failed c c') (hc : c.Valid a) : c'.Valid a where
  heapFree_nonneg := h.heapFree_nonneg
  heapFree_le := by
    have h1 := h.heapFree_le
    have h2 := hc.heapFree_le
    rw [jsMinCriticalFreeSize, jsMinFreeSize] at h1
    rw [h.stackBottom_eq]
    omega
  stackBottom_lt := h.stackBottom_eq ▸ hc.stackBottom_lt
  sp_nonneg := h.sp_eq ▸ hc.sp_nonneg
  sp_lt := h.sp_eq ▸ hc.sp_lt
  minFreeSize_eq := by rw [h.minFreeSize_eq, h.inOutOfMemory_eq, hc.minFreeSize_eq]

theorem failed_jsGC (h : c.Valid a) : Failed c (jsGC rt c) :=
  ⟨rfl, rfl, rfl, rfl, h.jsGC.heapFree_nonneg, .inl (jsGC_heapFree_le c)⟩

/-- One allocation or free made for the error object. -/
theorem failed_runErrorOp {op : ErrorOp} (h : c.Valid a) (hop : op.small) :
    Failed c (runErrorOp a rt c op) := by
  have hm := minFreeSize_bounds h
  have hf := h.heapFree_nonneg
  cases op with
  | malloc size =>
    rcases hr : jsMallocWith a rt id c size with ⟨_ | q, c'⟩
    · simp only [runErrorOp, hr]
      rcases jsMallocWith_none hr with rfl | rfl
      · exact Failed.refl hf
      · exact failed_jsGC h
    · have hs : SizeExact a c size := by
        obtain ⟨h0, h1⟩ := hop
        cases a <;> exact ⟨h0, by simp only [Arch.jsw]; omega⟩
      obtain ⟨hc', hn, hfree, -⟩ := jsMallocWith_some h hs hr
      simp only [runErrorOp, hr]
      rw [hc']
      refine ⟨rfl, rfl, rfl, rfl, hn, .inr ?_⟩
      rw [jsMinCriticalFreeSize, jsMinFreeSize]
      simp only
      omega
  | free size =>
    refine ⟨rfl, rfl, rfl, rfl, ?_, .inl ?_⟩ <;> simp only [runErrorOp] <;> omega

theorem failed_foldl_runErrorOp : ∀ {ops : List ErrorOp} {c : JSContext}, c.Valid a →
    (∀ op ∈ ops, op.small) → Failed c (ops.foldl (runErrorOp a rt) c)
  | [], _, h, _ => Failed.refl h.heapFree_nonneg
  | op :: ops, c, h, hops => by
    have h1 : Failed c (runErrorOp a rt c op) := failed_runErrorOp h (hops op List.mem_cons_self)
    rw [List.foldl_cons]
    exact h1.trans (failed_foldl_runErrorOp (h1.valid h) fun o ho => hops o (List.mem_cons_of_mem _ ho))

theorem failed_jsThrowOutOfMemory (h : c.Valid a) : Failed c (jsThrowOutOfMemory a rt c) := by
  unfold jsThrowOutOfMemory
  split_ifs with ho
  · exact Failed.refl h.heapFree_nonneg
  · have h1 : ({ c with inOutOfMemory := true, minFreeSize := jsMinCriticalFreeSize } :
        JSContext).Valid a := { h with minFreeSize_eq := by simp }
    have h2 : Failed _ ((rt.errorOps c).foldl (runErrorOp a rt) _) :=
      failed_foldl_runErrorOp h1 (rt.errorOps_small c)
    have hm : c.minFreeSize = jsMinFreeSize := by rw [h.minFreeSize_eq, if_neg ho]
    exact ⟨h2.stackBottom_eq, h2.sp_eq, hm.symm, by simp [ho], h2.heapFree_nonneg, h2.heapFree_le⟩

/-- While the error is being built, a failed request allocates nothing. -/
theorem jsThrowOutOfMemory_heapFree_le (ho : c.inOutOfMemory = true) :
    (jsThrowOutOfMemory a rt (jsGC rt c)).heapFree ≤ c.heapFree := by
  have hg : (jsGC rt c).inOutOfMemory = true := ho
  rw [jsThrowOutOfMemory, if_pos hg]
  exact jsGC_heapFree_le c

/-- A collection that did not help, and the error. -/
theorem failed_outOfMemory (h : c.Valid a) : Failed c (jsThrowOutOfMemory a rt (jsGC rt c)) :=
  (failed_jsGC h).trans (failed_jsThrowOutOfMemory h.jsGC)

theorem jsMalloc_none {size : ℤ} (h : c.Valid a) (hr : jsMalloc a rt c size = (none, c')) :
    Failed c c' := by
  rcases jsMallocWith_none hr with rfl | rfl
  · exact Failed.refl h.heapFree_nonneg
  · exact failed_outOfMemory h

/-! ### `JS_StackCheck` -/

/-- The byte count and its sum with `min_free_size` fit 32 bits, and where pointers have 32 bits
the new bottom is not below the heap. -/
def LenExact (a : Arch) (c : JSContext) (len : ℤ) : Prop :=
  0 ≤ len ∧ (len + jsStackSlack) * a.jsw + c.minFreeSize < 2 ^ 32
    ∧ (a = .jsw4 → c.heapFree ≤ c.sp - (len + jsStackSlack) * a.jsw)

theorem exact_stackCheck {len : ℤ} (h : c.Valid a) (hs : LenExact a c len) :
    uint32 (len + jsStackSlack) = len + jsStackSlack
      ∧ uint32 ((len + jsStackSlack) * a.jsw) = (len + jsStackSlack) * a.jsw
      ∧ Exact a c (c.sp - (len + jsStackSlack) * a.jsw) ((len + jsStackSlack) * a.jsw) := by
  obtain ⟨h0, h1, h2⟩ := hs
  have hm := minFreeSize_bounds h
  have hsp := h.sp_nonneg
  have hsp' := h.sp_lt
  have hn : 0 ≤ (len + jsStackSlack) * a.jsw := by
    rw [jsStackSlack]
    positivity
  have hle : len + jsStackSlack ≤ (len + jsStackSlack) * a.jsw := by
    rw [jsStackSlack] at *
    cases a <;> simp only [Arch.jsw] at * <;> omega
  refine ⟨?_, ?_, hn, h1, h2, by omega, by omega⟩
  · rw [jsStackSlack] at *
    rw [uint32]
    omega
  · generalize (len + jsStackSlack) * a.jsw = n at *
    rw [uint32]
    omega

theorem jsStackCheck_true {len : ℤ} (h : c.Valid a) (hs : LenExact a c len)
    (hr : jsStackCheck a rt c len = (true, c')) :
    c' = { c with heapFree := c'.heapFree, stackBottom := c.sp - (len + jsStackSlack) * a.jsw }
      ∧ 0 ≤ c'.heapFree
      ∧ c'.heapFree + c.minFreeSize ≤ c.sp - (len + jsStackSlack) * a.jsw := by
  obtain ⟨hu, hu', hx⟩ := exact_stackCheck h hs
  have hm := minFreeSize_bounds h
  simp only [jsStackCheck, hu, hu'] at hr
  split at hr
  · cases hr
  · next c1 hc =>
    obtain ⟨hc1, hn1, hle1, hfree⟩ := checkFreeMem_true h hx hc
    have hs0 := hx.size_nonneg
    have hw := wrapPtr_eq_self (a := a) (p := c.sp - (len + jsStackSlack) * a.jsw) (by omega) hx.hi
    obtain rfl := (Prod.mk.inj hr).2
    refine ⟨?_, hn1, by simp only; omega⟩
    rw [hw, hc1]

theorem jsStackCheck_eq_throw {len : ℤ} (hr : jsStackCheck a rt c len = (false, c')) :
    c' = jsThrowOutOfMemory a rt (jsGC rt c) := by
  simp only [jsStackCheck] at hr
  split at hr
  · next c1 hc =>
    obtain rfl := (Prod.mk.inj hr).2
    exact checkFreeMem_false hc
  · cases hr

theorem jsStackCheck_false {len : ℤ} (h : c.Valid a)
    (hr : jsStackCheck a rt c len = (false, c')) : Failed c c' := by
  rw [jsStackCheck_eq_throw hr]
  exact failed_outOfMemory h

/-! ### The allocator as a whole -/

/-- What is left of the heap's end after a request that failed: it has not advanced, but for an
error object built above the critical reserve. -/
def NotAdvanced (c c' : JSContext) : Prop :=
  c'.stackBottom = c.stackBottom ∧ (c'.heapFree ≤ c.heapFree
    ∨ c.inOutOfMemory = false ∧ c'.heapFree + jsMinCriticalFreeSize ≤ c.stackBottom)

theorem notAdvanced_outOfMemory (h : c.Valid a) :
    NotAdvanced c (jsThrowOutOfMemory a rt (jsGC rt c)) := by
  have hf : Failed c (jsThrowOutOfMemory a rt (jsGC rt c)) := failed_outOfMemory h
  refine ⟨hf.stackBottom_eq, ?_⟩
  rcases hb : c.inOutOfMemory with _ | _
  · exact hf.heapFree_le.imp_right fun h2 => ⟨rfl, h2⟩
  · exact .inl (jsThrowOutOfMemory_heapFree_le hb)

/-- A request that succeeds leaves `min_free_size` bytes between the heap and the stack, and one
that fails advances neither end, the error object apart. -/
theorem allocator_keeps_reserve (rt : Runtime) (c : JSContext) (h : c.Valid a) :
    (∀ size q c', SizeExact a c size → jsMalloc a rt c size = (some q, c') →
      c'.heapFree + c'.minFreeSize ≤ c'.stackBottom)
    ∧ (∀ size c', jsMalloc a rt c size = (none, c') → NotAdvanced c c')
    ∧ (∀ len c', LenExact a c len → jsStackCheck a rt c len = (true, c') →
      c'.heapFree + c'.minFreeSize ≤ c'.stackBottom)
    ∧ (∀ len c', jsStackCheck a rt c len = (false, c') → NotAdvanced c c') := by
  refine ⟨?_, ?_, ?_, ?_⟩
  · intro size q c' hs hr
    obtain ⟨hc', -, hfree, -⟩ := jsMallocWith_some h hs hr
    rw [hc']
    exact hfree
  · intro size c' hr
    rcases jsMallocWith_none hr with rfl | rfl
    · exact ⟨rfl, .inl le_rfl⟩
    · exact notAdvanced_outOfMemory h
  · intro len c' hs hr
    obtain ⟨hc', -, hfree⟩ := jsStackCheck_true h hs hr
    rw [hc']
    exact hfree
  · intro len c' hr
    rw [jsStackCheck_eq_throw hr]
    exact notAdvanced_outOfMemory h

/-- A heap without garbage: the error takes a string and an object. -/
def fullRuntime : Runtime where
  gc c := c.heapFree
  gc_nonneg _ h := h
  gc_le _ := le_rfl
  errorOps _ := [.malloc 22, .malloc 40]
  errorOps_small _ op hop := by
    simp only [List.mem_cons, List.not_mem_nil, or_false] at hop
    rcases hop with rfl | rfl <;> norm_num [ErrorOp.small]

def fullContext : JSContext := ⟨4096, 4696, 5000, 512, false⟩

theorem allocator_keeps_reserve_full : JSContext.Valid .jsw8 fullContext
    ∧ jsMalloc .jsw8 fullRuntime fullContext 40
      = (some 4096, ⟨4136, 4696, 5000, 512, false⟩)
    ∧ (4136 : ℤ) + 512 ≤ 4696 := by
  have h : JSContext.Valid .jsw8 fullContext := by constructor <;> decide
  have hr : jsMalloc .jsw8 fullRuntime fullContext 40
      = (some 4096, ⟨4136, 4696, 5000, 512, false⟩) := by decide
  exact ⟨h, hr, (allocator_keeps_reserve fullRuntime fullContext h).1 40 _ _
    ⟨by decide, by decide⟩ hr⟩

/-- Too large a request on a full heap fails, and the error object advances the heap. -/
theorem jsMalloc_failure_advances : JSContext.Valid .jsw8 fullContext
    ∧ jsMalloc .jsw8 fullRuntime fullContext 200 = (none, ⟨4160, 4696, 5000, 512, false⟩)
    ∧ fullContext.heapFree < 4160 := by
  refine ⟨by constructor <;> decide, by decide, by decide⟩

end Qjs
