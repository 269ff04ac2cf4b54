import Qjs.AetherBytes

namespace Qjs

namespace Aether

namespace Bytes

variable {b : AetherBytes} {bytes : List UInt8}

/-! ### The buffer -/

theorem growTo_ge (turns newCap minCapacity : ℕ) (hmin : minCapacity ≤ 2 ^ 63)
    (hturns : minCapacity ≤ newCap * 2 ^ turns) :
    minCapacity ≤ growTo turns newCap minCapacity := by
  induction turns generalizing newCap with
  | zero => simpa [growTo] using hturns
  | succ turns ih =>
    rw [growTo]
    by_cases hlt : newCap < minCapacity
    · have hfit : newCap * 2 < sizeBound := by
        rw [sizeBound]
        omega
      rw [if_pos hlt, Nat.mod_eq_of_lt hfit]
      dsimp only
      rw [if_neg (by omega)]
      refine ih _ ?_
      rwa [Nat.mul_assoc, ← Nat.pow_succ']
    · rw [if_neg hlt]
      omega

theorem zeroTail_grown (data : List (Option UInt8)) (n : ℕ) :
    zeroTail data.length (data ++ List.replicate n none) = data ++ List.replicate n (some 0) := by
  rw [zeroTail, List.take_left, List.drop_left, List.map_replicate]

/-- The buffer is the bytes and zeros behind them. -/
theorem shows_iff : Shows b bytes ↔ b.length = bytes.length ∧ bytes.length ≤ b.capacity ∧
    b.data = bytes.map some ++ List.replicate (b.capacity - bytes.length) (some 0) := by
  constructor
  · rintro ⟨hlen, n, hdata⟩
    have hcap : b.capacity = bytes.length + n := by
      rw [AetherBytes.capacity, hdata]
      simp
    refine ⟨hlen, by omega, ?_⟩
    rw [hdata, hcap, Nat.add_sub_cancel_left]
  · exact fun h => ⟨h.1, _, h.2.2⟩

/-- A reserve succeeds if there is room or memory, and shows the same bytes. -/
theorem reserve_spec (h : Shows b bytes) (memory : Bool) {minCapacity : ℕ}
    (hmin : minCapacity ≤ 2 ^ 63) :
    (∃ b', bytesReserve memory b minCapacity = some b' ∧ Shows b' bytes ∧
      minCapacity ≤ b'.capacity ∧ (minCapacity ≤ b.capacity ∨ memory = true)) ∨
    (bytesReserve memory b minCapacity = none ∧ ¬ minCapacity ≤ b.capacity ∧ memory = false) := by
  rw [bytesReserve]
  by_cases hle : minCapacity ≤ b.capacity
  · exact .inl ⟨b, if_pos hle, h, hle, .inl hle⟩
  · rw [if_neg hle]
    cases memory with
    | false => exact .inr ⟨rfl, hle, rfl⟩
    | true =>
      have hstart : 1 ≤ if 0 < b.capacity then b.capacity else 16 := by split_ifs <;> omega
      have hgrow := growTo_ge 64 (if 0 < b.capacity then b.capacity else 16) minCapacity hmin
        (by omega)
      generalize growTo 64 (if 0 < b.capacity then b.capacity else 16) minCapacity = newCap at hgrow
      obtain ⟨hlen, n, hdata⟩ := h
      rw [if_pos rfl]
      dsimp only
      rw [AetherBytes.capacity, zeroTail_grown]
      refine .inl ⟨_, rfl, ⟨hlen, n + (newCap - b.data.length), ?_⟩, ?_, .inr rfl⟩
      · dsimp only
        rw [hdata, List.append_assoc, List.replicate_append_replicate]
      · rw [AetherBytes.capacity] at hle ⊢
        dsimp only
        rw [List.length_append, List.length_replicate]
        omega

/-! ### The three calls -/

theorem length_padTo (n : ℕ) (bytes : List UInt8) :
    (padTo n bytes).length = max bytes.length n := by
  rw [padTo, List.length_append, List.length_replicate]
  omega

/-- With room for them, zeros behind the bytes belong to the bytes as well. -/
theorem data_padTo (h : Shows b bytes) {n : ℕ} (hn : n ≤ b.capacity) :
    b.data = (padTo n bytes).map some ++
      List.replicate (b.capacity - (padTo n bytes).length) (some 0) := by
  obtain ⟨hlen, hle, hdata⟩ := shows_iff.1 h
  rw [length_padTo, padTo, List.map_append, List.map_replicate, List.append_assoc,
    List.replicate_append_replicate, hdata]
  congr 2
  omega

/-- New bytes in place of those before the zeros. -/
theorem shows_cover {data : List (Option UInt8)} (h : Shows b bytes) {bytes' : List UInt8} {n k : ℕ}
    (hdata : data = bytes'.map some ++ List.replicate k (some 0))
    (hlen : bytes'.length = (padTo n bytes).length) : Shows (b.cover n data) bytes' := by
  refine ⟨?_, k, hdata⟩
  rw [AetherBytes.cover, hlen, length_padTo, h.length]

theorem set_shows (h : Shows b bytes) {index : ℕ} (byte : ℤ) (hroom : index + 1 ≤ b.capacity) :
    Shows (b.cover (index + 1) (b.data.set index (some (UInt8.ofNat (byte % 256).toNat))))
      (setAt bytes index byte) := by
  have hindex : index < (padTo (index + 1) bytes).length := by
    rw [length_padTo]
    omega
  refine shows_cover h (k := b.capacity - (padTo (index + 1) bytes).length) ?_ ?_
  · rw [data_padTo h hroom, List.set_append_left _ _ (by rwa [List.length_map]), setAt,
      List.map_set]
  · rw [setAt, List.length_set]

theorem put_shows (h : Shows b bytes) {dst : ℕ} (payload : List UInt8)
    (hroom : dst + payload.length ≤ b.capacity) :
    Shows (b.cover (dst + payload.length) (b.data.take dst ++ payload.map some ++
      b.data.drop (dst + payload.length))) (putAt bytes dst payload) := by
  have hlen := length_padTo (dst + payload.length) bytes
  refine shows_cover h (k := b.capacity - (padTo (dst + payload.length) bytes).length) ?_ ?_
  · rw [data_padTo h hroom, List.take_append_of_le_length (by rw [List.length_map]; omega),
      List.drop_append_of_le_length (by rw [List.length_map]; omega), putAt]
    simp only [List.map_append, List.map_take, List.map_drop, List.append_assoc]
  · rw [putAt]
    simp only [List.length_append, List.length_take, List.length_drop]
    omega

theorem length_copyForward (dst src i turns : ℕ) (bytes : List UInt8) :
    (copyForward dst src i turns bytes).length = bytes.length := by
  induction turns generalizing i bytes with
  | zero => rfl
  | succ turns ih => rw [copyForward, ih, List.length_set]

theorem copyForward_frame (dst src i turns k : ℕ) (bytes : List UInt8) (hk : k < dst + i) :
    (copyForward dst src i turns bytes).getD k 0 = bytes.getD k 0 := by
  induction turns generalizing i bytes with
  | zero => rfl
  | succ turns ih =>
    rw [copyForward, ih _ _ (by omega), List.getD_eq_getElem?_getD, List.getElem?_set_ne (by omega),
      ← List.getD_eq_getElem?_getD]

/-- A copy to a later place repeats what lies between the source and the destination. -/
theorem copyForward_repeats {dst src : ℕ} (hlt : src < dst) (i turns j : ℕ) (bytes : List UInt8)
    (hlen : dst + i + turns ≤ bytes.length) (hij : i ≤ j) (hj : j < i + turns) :
    (copyForward dst src i turns bytes).getD (dst + j) 0 =
      (copyForward dst src i turns bytes).getD (src + j) 0 := by
  induction turns generalizing i bytes with
  | zero => omega
  | succ turns ih =>
    rw [copyForward]
    rcases Nat.eq_or_lt_of_le hij with rfl | hlt'
    · rw [copyForward_frame _ _ _ _ _ _ (by omega), copyForward_frame _ _ _ _ _ _ (by omega),
        List.getD_eq_getElem?_getD, List.getElem?_set_self (by omega)]
      simp only [List.getD_eq_getElem?_getD]
      rw [List.getElem?_set_ne (by omega)]
      rfl
    · exact ih (i + 1) _ (by rw [List.length_set]; omega) hlt' (by omega)

theorem copyLoop_step {dst src i turns : ℕ} {data : List (Option UInt8)} {byte : UInt8}
    (hint : dst + i < intBound ∧ src + i < intBound) (hread : data[src + i]? = some (some byte))
    (hwrite : dst + i < data.length) :
    copyLoop dst src i (turns + 1) data =
      copyLoop dst src (i + 1) turns (data.set (dst + i) (some byte)) := by
  rw [copyLoop, if_pos hint, hread]
  dsimp only
  rw [if_pos hwrite]

/-- The loop copies as the list model does, as long as its indices are in the bytes and `int`s. -/
theorem copyLoop_ok (dst src i turns k : ℕ) (bytes : List UInt8)
    (hdst : dst + i + turns ≤ bytes.length) (hsrc : src + i + turns ≤ bytes.length)
    (hdstInt : dst + i + turns ≤ intBound) (hsrcInt : src + i + turns ≤ intBound) :
    copyLoop dst src i turns (bytes.map some ++ List.replicate k (some 0)) =
      .ok ((copyForward dst src i turns bytes).map some ++ List.replicate k (some 0)) := by
  induction turns generalizing i bytes with
  | zero => rfl
  | succ turns ih =>
    have hread : (bytes.map some ++ List.replicate k (some (0 : UInt8)))[src + i]? =
        some (some (bytes.getD (src + i) 0)) := by
      have hi : src + i < bytes.length := by omega
      rw [List.getElem?_append_left (by rwa [List.length_map]), List.getElem?_map,
        List.getElem?_eq_getElem hi, List.getD_eq_getElem _ _ hi]
      rfl
    rw [copyLoop_step (by omega) hread (by rw [List.length_append, List.length_map]; omega),
      List.set_append_left _ _ (by rw [List.length_map]; omega), ← List.map_set, copyForward]
    exact ih (i + 1) _ (by rw [List.length_set]; omega) (by rw [List.length_set]; omega) (by omega)
      (by omega)

/-- A loop that ends has had no index from 2^31 on. -/
theorem copyLoop_lt {dst src i turns : ℕ} {data data' : List (Option UInt8)}
    (h : copyLoop dst src i turns data = .ok data') :
    turns = 0 ∨ dst + i + turns ≤ intBound ∧ src + i + turns ≤ intBound := by
  induction turns generalizing i data with
  | zero => exact .inl rfl
  | succ turns ih =>
    rw [copyLoop] at h
    by_cases hint : dst + i < intBound ∧ src + i < intBound
    · rw [if_pos hint] at h
      rcases hread : data[src + i]? with _ | _ | byte
      · rw [hread] at h
        cases h
      · rw [hread] at h
        cases h
      · rw [hread] at h
        dsimp only at h
        split_ifs at h
        have := ih h
        omega
    · rw [if_neg hint] at h
      cases h

/-- The loop after a reserve, with every index an `int`. -/
theorem loop_shows (h : Shows b bytes) {dst src length : ℕ} (hroom : dst + length ≤ b.capacity)
    (hsrc : src + length ≤ (padTo (dst + length) bytes).length) (hdstInt : dst + length ≤ intBound)
    (hsrcInt : src + length ≤ intBound) :
    ∃ data, copyLoop dst src 0 length b.data = .ok data ∧ Shows (b.cover (dst + length) data)
      (copyForward dst src 0 length (padTo (dst + length) bytes)) := by
  have hloop := copyLoop_ok dst src 0 length (b.capacity - (padTo (dst + length) bytes).length)
    (padTo (dst + length) bytes) (by rw [length_padTo]; omega) hsrc hdstInt hsrcInt
  rw [← data_padTo h hroom] at hloop
  exact ⟨_, hloop, shows_cover h rfl (length_copyForward _ _ _ _ _)⟩

theorem int_range (n : Int32) : -2 ^ 31 ≤ n.toInt ∧ n.toInt < 2 ^ 31 :=
  ⟨n.le_toInt, n.toInt_lt⟩

/-- What a call does: it returns if it fits where it takes effect, it returns 1 if it takes effect,
and then the bytes are those of the list model. -/
def Spec (b : AetherBytes) (bytes : List UInt8) (c : Call) : Prop :=
  ((∃ out, call b c = .ok out) ↔ (c.Takes b bytes → c.Fits)) ∧
    ∀ r b', call b c = .ok (r, b') →
      (r = true ↔ c.Takes b bytes) ∧ Shows b' (if r then c.meaning bytes else bytes)

theorem spec_of_refused {c : Call} (h : Shows b bytes) (hcall : call b c = .ok (false, b))
    (hnot : ¬ c.Takes b bytes) : Spec b bytes c := by
  refine ⟨iff_of_true ⟨_, hcall⟩ fun htakes => absurd htakes hnot, fun r b' hok => ?_⟩
  obtain ⟨rfl, rfl⟩ := Prod.mk.inj (Except.ok.inj (hcall.symm.trans hok))
  exact ⟨iff_of_false Bool.false_ne_true hnot, h⟩

theorem spec_of_taken {b' : AetherBytes} {c : Call} (hcall : call b c = .ok (true, b'))
    (htakes : c.Takes b bytes) (hfits : c.Fits) (h : Shows b' (c.meaning bytes)) :
    Spec b bytes c := by
  refine ⟨iff_of_true ⟨_, hcall⟩ fun _ => hfits, fun r b'' hok => ?_⟩
  obtain ⟨rfl, rfl⟩ := Prod.mk.inj (Except.ok.inj (hcall.symm.trans hok))
  exact ⟨iff_of_true rfl htakes, h⟩

theorem spec_of_fault {c : Call} (hcall : ∀ out, call b c ≠ .ok out) (htakes : c.Takes b bytes)
    (hnot : ¬ c.Fits) : Spec b bytes c :=
  ⟨iff_of_false (fun ⟨out, hok⟩ => hcall out hok) fun hfits => hnot (hfits htakes),
    fun _ _ hok => absurd hok (hcall _)⟩

theorem set_spec (h : Shows b bytes) (memory : Bool) (index byte : Int32) :
    Spec b bytes (.set memory index byte) := by
  have hrange := int_range index
  by_cases hneg : index.toInt < 0
  · exact spec_of_refused h (if_pos hneg) fun htakes => absurd htakes.1 (not_le.2 hneg)
  · have hvalid : (Call.set memory index byte).Valid bytes := not_lt.1 hneg
    have hmin : index.toInt.toNat + 1 ≤ 2 ^ 63 := by omega
    obtain ⟨b', hreserve, h', hroom, htakes⟩ | ⟨hreserve, hroom, hmem⟩ :=
      reserve_spec h memory hmin
    · refine spec_of_taken ?_ ⟨hvalid, htakes⟩ trivial (set_shows h' byte.toInt hroom)
      rw [call, aetherBytesSet, if_neg hneg]
      simp only [hreserve]
      rw [if_pos (by omega)]
    · refine spec_of_refused h ?_ fun htakes => ?_
      · rw [call, aetherBytesSet, if_neg hneg]
        simp only [hreserve]
      · exact htakes.2.elim hroom fun hm => Bool.false_ne_true (hmem.symm.trans hm)

theorem copyFromString_spec (h : Shows b bytes) (memory : Bool) (dst : Int32)
    (src : Option (List UInt8)) (srcLen : Int32) :
    Spec b bytes (.copyFromString memory dst src srcLen) := by
  have hdst := int_range dst
  have hlen := int_range srcLen
  cases src with
  | none => exact spec_of_refused h rfl fun htakes => Bool.false_ne_true htakes.1.2.1
  | some payload =>
    by_cases hneg : dst.toInt < 0 ∨ srcLen.toInt < 0
    · refine spec_of_refused h (if_pos hneg) fun htakes => ?_
      obtain ⟨⟨hdst', -, hlen'⟩, -⟩ := htakes
      omega
    · have hvalid : (Call.copyFromString memory dst (some payload) srcLen).Valid bytes :=
        ⟨by omega, rfl, by omega⟩
      by_cases hzero : srcLen.toInt = 0
      · refine @spec_of_taken b bytes b _ ?_ ⟨hvalid, .inl ?_⟩ ?_ ?_
        · rw [call, aetherBytesCopyFromString]
          dsimp only
          rw [if_neg hneg, if_pos hzero]
        · rw [Call.needs, if_pos hzero]
          exact Nat.zero_le _
        · rw [Call.Fits, hzero]
          exact Nat.zero_le _
        · rwa [Call.meaning, if_pos hzero]
      · have hmin : dst.toInt.toNat + srcLen.toInt.toNat ≤ 2 ^ 63 := by omega
        have hneeds : (Call.copyFromString memory dst (some payload) srcLen).needs =
            (dst.toInt.toNat + srcLen.toInt.toNat, memory) := by
          rw [Call.needs, if_neg hzero]
        obtain ⟨b', hreserve, h', hroom, htakes⟩ | ⟨hreserve, hroom, hmem⟩ :=
          reserve_spec h memory hmin
        · have htakes' : (Call.copyFromString memory dst (some payload) srcLen).Takes b bytes := by
            rw [Call.Takes, hneeds]
            exact ⟨hvalid, htakes⟩
          by_cases hfits : srcLen.toInt.toNat ≤ payload.length
          · have htake : (payload.take srcLen.toInt.toNat).length = srcLen.toInt.toNat := by
              rw [List.length_take, min_eq_left hfits]
            have hshows := put_shows h' (payload.take srcLen.toInt.toNat) (htake.symm ▸ hroom)
            have hmeaning : (Call.copyFromString memory dst (some payload) srcLen).meaning bytes =
                putAt bytes dst.toInt.toNat (payload.take srcLen.toInt.toNat) := by
              rw [Call.meaning, if_neg hzero]
              rfl
            rw [htake, ← hmeaning] at hshows
            refine spec_of_taken ?_ htakes' hfits hshows
            rw [call, aetherBytesCopyFromString]
            simp only [if_neg hneg, if_neg hzero, hreserve]
            rw [if_pos ⟨hfits, hroom⟩]
          · refine spec_of_fault (fun out => ?_) htakes' hfits
            rw [call, aetherBytesCopyFromString]
            simp only [if_neg hneg, if_neg hzero, hreserve]
            rw [if_neg fun hand => hfits hand.1]
            exact fun hok => nomatch hok
        · refine spec_of_refused h ?_ fun htakes => ?_
          · rw [call, aetherBytesCopyFromString]
            simp only [if_neg hneg, if_neg hzero, hreserve]
          · rw [Call.Takes, hneeds] at htakes
            exact htakes.2.elim hroom fun hm => Bool.false_ne_true (hmem.symm.trans hm)

theorem copyWithin_spec (h : Shows b bytes) (memory : Bool) (dst src length : Int32) :
    Spec b bytes (.copyWithin memory dst src length) := by
  have hdstRange := int_range dst
  have hsrcRange := int_range src
  have hlenRange := int_range length
  have hb := h.length
  by_cases hneg : dst.toInt < 0 ∨ src.toInt < 0 ∨ length.toInt < 0
  · refine spec_of_refused h (if_pos hneg) fun htakes => ?_
    obtain ⟨⟨hdst, hsrc, hlen, -⟩, -⟩ := htakes
    omega
  · by_cases hzero : length.toInt = 0
    · have hvalid : (Call.copyWithin memory dst src length).Valid bytes :=
        ⟨by omega, by omega, by omega, .inl hzero⟩
      refine @spec_of_taken b bytes b _ ?_ ⟨hvalid, .inl ?_⟩ (.inl hzero) ?_
      · rw [call, aetherBytesCopyWithin, if_neg hneg, if_pos hzero]
      · rw [Call.needs, if_pos hzero]
        exact Nat.zero_le _
      · rwa [Call.meaning, if_pos hzero]
    · by_cases hfar : b.length ≤ src.toInt.toNat
      · refine spec_of_refused h ?_ fun htakes => ?_
        · rw [call, aetherBytesCopyWithin, if_neg hneg, if_neg hzero, if_pos hfar]
        · obtain ⟨⟨-, -, -, hread⟩, -⟩ := htakes
          omega
      · by_cases hpast : dst.toInt ≤ src.toInt ∧ b.length < src.toInt.toNat + length.toInt.toNat
        · refine spec_of_refused h ?_ fun htakes => ?_
          · rw [call, aetherBytesCopyWithin, if_neg hneg, if_neg hzero, if_neg hfar, if_pos hpast]
          · obtain ⟨⟨-, -, -, hread⟩, -⟩ := htakes
            omega
        · have hvalid : (Call.copyWithin memory dst src length).Valid bytes :=
            ⟨by omega, by omega, by omega, .inr (by omega)⟩
          have hmin : dst.toInt.toNat + length.toInt.toNat ≤ 2 ^ 63 := by omega
          have hneeds : (Call.copyWithin memory dst src length).needs =
              (dst.toInt.toNat + length.toInt.toNat, memory) := by
            rw [Call.needs, if_neg hzero]
          obtain ⟨b', hreserve, h', hroom, htakes⟩ | ⟨hreserve, hroom, hmem⟩ :=
            reserve_spec h memory hmin
          · have htakes' : (Call.copyWithin memory dst src length).Takes b bytes := by
              rw [Call.Takes, hneeds]
              exact ⟨hvalid, htakes⟩
            by_cases hfits : (Call.copyWithin memory dst src length).Fits
            · have hint : dst.toInt.toNat + length.toInt.toNat ≤ intBound ∧
                  src.toInt.toNat + length.toInt.toNat ≤ intBound := by
                have hor := hfits.resolve_left hzero
                rw [intBound]
                omega
              obtain ⟨data, hloop, hshows⟩ :=
                loop_shows h' hroom (by rw [length_padTo]; omega) hint.1 hint.2
              have hmeaning : (Call.copyWithin memory dst src length).meaning bytes =
                  copyForward dst.toInt.toNat src.toInt.toNat 0 length.toInt.toNat
                    (padTo (dst.toInt.toNat + length.toInt.toNat) bytes) := by
                rw [Call.meaning, if_neg hzero]
              refine spec_of_taken ?_ htakes' hfits (hmeaning ▸ hshows)
              rw [call, aetherBytesCopyWithin]
              simp only [if_neg hneg, if_neg hzero, if_neg hfar, if_neg hpast, hreserve, hloop]
              rfl
            · refine spec_of_fault (fun out hok => hfits ?_) htakes' hfits
              rw [call, aetherBytesCopyWithin] at hok
              simp only [if_neg hneg, if_neg hzero, if_neg hfar, if_neg hpast, hreserve] at hok
              rcases hloop : copyLoop dst.toInt.toNat src.toInt.toNat 0 length.toInt.toNat b'.data
                with _ | data
              · rw [hloop] at hok
                cases hok
              · have hint := copyLoop_lt hloop
                rw [intBound] at hint
                exact .inr (by omega)
          · refine spec_of_refused h ?_ fun htakes => ?_
            · rw [call, aetherBytesCopyWithin]
              simp only [if_neg hneg, if_neg hzero, if_neg hfar, if_neg hpast, hreserve]
            · rw [Call.Takes, hneeds] at htakes
              exact htakes.2.elim hroom fun hm => Bool.false_ne_true (hmem.symm.trans hm)

theorem call_spec (h : Shows b bytes) (c : Call) : Spec b bytes c := by
  cases c with
  | set memory index byte => exact set_spec h memory index byte
  | copyFromString memory dst src srcLen => exact copyFromString_spec h memory dst src srcLen
  | copyWithin memory dst src length => exact copyWithin_spec h memory dst src length

/-! ### Runs -/

theorem shows_new {memory : Bool} {initialCapacity : Int32}
    (hnew : aetherBytesNew memory initialCapacity.toInt = some b) : Shows b [] := by
  have hrange := int_range initialCapacity
  rw [aetherBytesNew] at hnew
  by_cases hneg : initialCapacity.toInt < 0
  · rw [if_pos hneg] at hnew
    cases hnew
  · rw [if_neg hneg] at hnew
    have hempty : Shows ⟨0, []⟩ [] := ⟨rfl, 0, rfl⟩
    have hmin : initialCapacity.toInt.toNat ≤ 2 ^ 63 := by omega
    obtain ⟨b', hreserve, h', -, -⟩ | ⟨hreserve, -, -⟩ := reserve_spec hempty memory hmin
    · exact Option.some.inj (hreserve.symm.trans hnew) ▸ h'
    · cases hreserve.symm.trans hnew

/-- Every run of calls that return keeps to the list model. -/
theorem Reached.shows (h : Reached b bytes) : Shows b bytes := by
  induction h with
  | new hnew => exact shows_new hnew
  | call _ hcall ih => exact ((call_spec ih _).2 _ _ hcall).2

theorem finish_shows (h : Shows b bytes) (n : ℤ) :
    aetherBytesFinish b n = (bytes.take n.toNat).map some := by
  obtain ⟨hlen, k, hdata⟩ := h
  rw [aetherBytesFinish, hlen, hdata,
    List.take_append_of_le_length (by rw [List.length_map]; omega), ← List.map_take]
  congr 1
  rcases Nat.le_total n.toNat bytes.length with hn | hn
  · rw [min_eq_left hn]
  · rw [min_eq_right hn, List.take_of_length_le le_rfl, List.take_of_length_le hn]

end Bytes

end Aether

end Qjs
