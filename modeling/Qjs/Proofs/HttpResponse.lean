import Qjs.HttpResponse
import Qjs.Proofs.Http

namespace Qjs

namespace Http

namespace Response

open FirstMatch

/-! ### What the reader accepts -/

theorem readField_clean {line : Str} {f : Str × Str} (h : readField line = some f) :
    CleanHeader f := by
  rw [readField] at h
  rcases hcut : cut [colon] line with _ | ⟨name, rest⟩ <;> rw [hcut] at h
  · cases h
  · dsimp only at h
    generalize (if rest.head? = some space then rest.tail else rest) = value at h
    split_ifs at h with hclean
    obtain rfl := Option.some.inj h
    exact ⟨hclean.1, notMem_of_cut hcut, hclean.2.1, hclean.2.2⟩

theorem readFields_some {fuel : ℕ} {s : Str} {fields : List (Str × Str)} {body : List UInt8}
    (h : readFields fuel s = some (fields, body)) :
    (∀ f ∈ fields, CleanHeader f) ∧ body.length ≤ s.length := by
  induction fuel generalizing s fields with
  | zero => cases h
  | succ fuel ih =>
    rw [readFields] at h
    rcases hcut : cut crlf s with _ | ⟨line, rest⟩ <;> rw [hcut] at h
    · cases h
    · have hlen := length_of_cut hcut
      dsimp only at h
      split_ifs at h
      · obtain ⟨rfl, rfl⟩ := Prod.mk.inj (Option.some.inj h)
        exact ⟨by simp, by omega⟩
      · rcases hfield : readField line with _ | f <;> rw [hfield] at h
        · cases h
        · rcases hrest : readFields fuel rest with _ | ⟨fields', body'⟩ <;>
            simp only [hrest, Option.bind_eq_bind, Option.bind_some, Option.bind_none] at h
          · cases h
          · obtain ⟨rfl, rfl⟩ := Prod.mk.inj (Option.some.inj h)
            obtain ⟨hclean, hle⟩ := ih hrest
            refine ⟨fun g hg => ?_, by omega⟩
            rcases List.mem_cons.1 hg with rfl | hmem
            · exact readField_clean hfield
            · exact hclean g hmem

theorem readStatusLine_some {line code reason : Str}
    (h : readStatusLine line = some (code, reason)) :
    code.length = 3 ∧ ∀ c ∈ code, digit c := by
  rw [readStatusLine] at h
  split at h
  · split_ifs at h with hline
    obtain ⟨rfl, rfl⟩ := Prod.mk.inj (Option.some.inj h)
    obtain ⟨-, ha, hb, hc, -⟩ := hline
    refine ⟨rfl, ?_⟩
    simp [ha, hb, hc]
  · cases h

theorem readResponse_some {s : List UInt8} {m : Message} (h : readResponse s = some m) :
    (m.code.length = 3 ∧ ∀ c ∈ m.code, digit c) ∧ (∀ f ∈ m.fields, CleanHeader f) ∧
      m.body.length ≤ s.length := by
  rw [readResponse] at h
  rcases hcut : cut crlf s with _ | ⟨line, rest⟩ <;>
    simp only [hcut, Option.bind_eq_bind, Option.bind_some, Option.bind_none] at h
  · cases h
  · rcases hline : readStatusLine line with _ | ⟨code, reason⟩ <;>
      simp only [hline, Option.bind_some, Option.bind_none] at h
    · cases h
    · rcases hfields : readFields (rest.length + 1) rest with _ | ⟨fields, body⟩ <;>
        simp only [hfields, Option.bind_some, Option.bind_none] at h
      · cases h
      · obtain rfl := Option.some.inj h
        obtain ⟨hclean, hle⟩ := readFields_some hfields
        have hlen := length_of_cut hcut
        exact ⟨readStatusLine_some hline, hclean, by dsimp only; omega⟩

/-! ### What the reader makes of clean headers -/

theorem not_infix_crlf {s : Str} (h : ∀ c ∈ s, ¬ lineBreak c) : ¬ crlf <:+: s := by
  intro hsub
  exact h 0x0d (hsub.subset (by simp [crlf])) (.inl rfl)

theorem readField_headerLine {h : Str × Str} (hclean : CleanHeader h) :
    readField (headerLine h) = some h := by
  have hcut : cut [colon] (headerLine h) = some (h.1, space :: h.2) := by
    rw [headerLine, List.append_assoc]
    exact cut_singleton hclean.name_colon _
  rw [readField, hcut]
  exact if_pos ⟨hclean.name_ne, hclean.name_breaks, hclean.value_breaks⟩

theorem headerLine_breaks {h : Str × Str} (hclean : CleanHeader h) :
    ∀ c ∈ headerLine h, ¬ lineBreak c := by
  intro c hc
  rw [headerLine, List.append_assoc, List.mem_append, List.mem_append] at hc
  rcases hc with hname | hsep | hvalue
  · exact hclean.name_breaks c hname
  · rw [colonSpace] at hsep
    rcases List.mem_cons.1 hsep with rfl | hspace
    · decide
    · rw [List.mem_singleton.1 hspace]
      decide
  · exact hclean.value_breaks c hvalue

theorem readFields_render {hs : List (Str × Str)} (hclean : ∀ h ∈ hs, CleanHeader h)
    (body : List UInt8) {fuel : ℕ} (hfuel : hs.length < fuel) :
    readFields fuel (hs.flatMap (fun h => headerLine h ++ crlf) ++ (crlf ++ body)) =
      some (hs, body) := by
  induction hs generalizing fuel with
  | nil =>
    rcases fuel with _ | fuel
    · cases hfuel
    · rw [List.flatMap_nil, List.nil_append, readFields, cut_self]
      rfl
  | cons h hs ih =>
    rcases fuel with _ | fuel
    · cases hfuel
    · have hh := hclean h List.mem_cons_self
      have hne : headerLine h ≠ [] := by
        rw [headerLine]
        simp [hh.name_ne]
      rw [List.flatMap_cons, List.append_assoc, List.append_assoc, readFields,
        cut_append unbordered_crlf (not_infix_crlf (headerLine_breaks hh))]
      dsimp only
      rw [if_neg hne, readField_headerLine hh,
        ih (fun g hg => hclean g (List.mem_cons_of_mem _ hg)) (Nat.lt_of_succ_lt_succ hfuel)]
      rfl

/-! ### Numbers -/

theorem decimal_digits (n : ℕ) : ∀ c ∈ decimal n, digit c := by
  rw [decimal]
  split_ifs
  · intro c hc
    rw [List.mem_singleton.1 hc]
    decide
  · intro c hc
    obtain ⟨d, hd, rfl⟩ := List.mem_map.1 hc
    have hlt : d < 10 := Nat.digits_lt_base (by decide) (List.mem_reverse.1 hd)
    have hall : ∀ k < 10, digit (UInt8.ofNat (0x30 + k)) := by decide
    exact hall d hlt

theorem length_decimal {n k : ℕ} (hk : 0 < k) : (decimal n).length ≤ k ↔ n < 10 ^ k := by
  rw [decimal]
  split_ifs with hzero
  · subst hzero
    exact iff_of_true hk (Nat.pow_pos (by decide))
  · rw [List.length_map, List.length_reverse]
    exact Nat.digits_length_le_iff (by decide) n

/-- Three digits are what a status from 100 to 999 has. -/
theorem decimalInt_three (n : ℤ) :
    ((decimalInt n).length = 3 ∧ ∀ c ∈ decimalInt n, digit c) ↔ 100 ≤ n ∧ n ≤ 999 := by
  rw [decimalInt]
  split_ifs with hneg
  · refine iff_of_false (fun h => ?_) (by omega)
    exact absurd (h.2 0x2d List.mem_cons_self) (by decide)
  · have h2 := @length_decimal n.toNat 2 (by decide)
    have h3 := @length_decimal n.toNat 3 (by decide)
    constructor
    · rintro ⟨hlen, -⟩
      omega
    · intro hrange
      exact ⟨by omega, decimal_digits _⟩

theorem readStatusLine_statusLine {res : HttpServerResponse}
    (hcode : (decimalInt res.statusCode).length = 3 ∧ ∀ c ∈ decimalInt res.statusCode, digit c) :
    readStatusLine (statusLine res) = some (decimalInt res.statusCode, res.statusText) := by
  obtain ⟨hlen, hdigits⟩ := hcode
  obtain ⟨a, b, c, habc⟩ := List.length_eq_three.1 hlen
  rw [habc] at hdigits
  have hdrop : (statusLine res).drop versionText.length =
      a :: b :: c :: space :: res.statusText := by
    rw [statusLine, List.append_assoc, List.drop_left, habc]
    rfl
  have htake : (statusLine res).take versionText.length = versionText := by
    rw [statusLine, List.append_assoc, List.take_left]
  rw [readStatusLine, hdrop]
  dsimp only
  rw [if_pos ⟨htake, hdigits a (by simp), hdigits b (by simp), hdigits c (by simp), rfl⟩, habc]

/-! ### The response that calls build -/

theorem sameName.trans {a b c : Str} (hab : sameName a b) (hbc : sameName b c) : sameName a c :=
  Eq.trans hab hbc

theorem updateHeader_some {key value : Str} {hs hs' : List (Str × Str)}
    (h : updateHeader key value hs = some hs') :
    hs'.map Prod.fst = hs.map Prod.fst ∧ fieldValue key hs' = some value := by
  induction hs generalizing hs' with
  | nil => cases h
  | cons h₀ hs ih =>
    rw [updateHeader] at h
    split_ifs at h with hsame
    · obtain rfl := Option.some.inj h
      refine ⟨rfl, ?_⟩
      rw [fieldValue, List.find?_cons_of_pos (by simpa using hsame)]
      rfl
    · obtain ⟨hs₁, hrest, rfl⟩ := Option.map_eq_some_iff.1 h
      obtain ⟨hnames, hvalue⟩ := ih hrest
      refine ⟨by rw [List.map_cons, List.map_cons, hnames], ?_⟩
      rw [fieldValue, List.find?_cons_of_neg (by simpa using hsame)]
      exact hvalue

theorem updateHeader_none {key value : Str} {hs : List (Str × Str)} :
    updateHeader key value hs = none ↔ fieldValue key hs = none := by
  induction hs with
  | nil => exact iff_of_true rfl rfl
  | cons h hs ih =>
    rw [updateHeader, fieldValue]
    by_cases hsame : sameName h.1 key
    · rw [if_pos hsame, List.find?_cons_of_pos (by simpa using hsame)]
      simp
    · rw [if_neg hsame, List.find?_cons_of_neg (by simpa using hsame), Option.map_eq_none_iff, ih,
        fieldValue]

/-- A header has its value after it is set, if there was one of its name or room for it. -/
theorem fieldValue_setHeader (res : HttpServerResponse) (key value : Str) :
    fieldValue key (setHeader res key value).headers =
      if (fieldValue key res.headers).isSome ∨ res.headers.length < maxHeaders then some value
      else none := by
  rw [setHeader]
  rcases hup : updateHeader key value res.headers with _ | headers
  · have hnone := updateHeader_none.1 hup
    dsimp only
    by_cases hfull : maxHeaders ≤ res.headers.length
    · rw [if_pos hfull, hnone, if_neg (by simp; omega)]
    · rw [if_neg hfull, if_pos (.inr (not_le.1 hfull)), fieldValue, List.find?_append]
      rw [fieldValue, Option.map_eq_none_iff] at hnone
      rw [hnone, Option.none_or, List.find?_cons_of_pos (by simp [sameName])]
      rfl
  · have hsome : (fieldValue key res.headers).isSome := by
      rw [Option.isSome_iff_ne_none]
      intro hnone
      rw [updateHeader_none.2 hnone] at hup
      cases hup
    dsimp only
    rw [if_pos (.inl hsome)]
    exact (updateHeader_some hup).2

theorem names_setHeader (res : HttpServerResponse) (key value : Str) :
    ∃ more, (setHeader res key value).headers.map Prod.fst = res.headers.map Prod.fst ++ more ∧
      ((fieldValue key res.headers).isSome → more = []) := by
  rw [setHeader]
  rcases hup : updateHeader key value res.headers with _ | headers
  · have hnone := updateHeader_none.1 hup
    dsimp only
    split_ifs
    · exact ⟨[], (List.append_nil _).symm, fun _ => rfl⟩
    · refine ⟨[key], List.map_append, fun hsome => ?_⟩
      rw [hnone] at hsome
      cases hsome
  · exact ⟨[], by rw [(updateHeader_some hup).1, List.append_nil], fun _ => rfl⟩

theorem isSome_fieldValue {name : Str} {hs : List (Str × Str)} :
    (fieldValue name hs).isSome ↔ ∃ n ∈ hs.map Prod.fst, sameName n name := by
  rw [fieldValue, Option.isSome_map, List.find?_isSome]
  simp

/-- What every response has: the text of its status and a `Content-Type`. -/
structure Built (res : HttpServerResponse) : Prop where
  text : res.statusText = httpStatusText res.statusCode
  code : -2 ^ 31 ≤ res.statusCode ∧ res.statusCode < 2 ^ 31
  type : (fieldValue contentType res.headers).isSome

theorem fieldValue_isSome_setHeader {res : HttpServerResponse} {name : Str} (key value : Str)
    (h : (fieldValue name res.headers).isSome) :
    (fieldValue name (setHeader res key value).headers).isSome := by
  obtain ⟨more, hnames, -⟩ := names_setHeader res key value
  rw [isSome_fieldValue] at h ⊢
  obtain ⟨n, hn, hsame⟩ := h
  exact ⟨n, by rw [hnames]; exact List.mem_append_left _ hn, hsame⟩

theorem setHeader_status (res : HttpServerResponse) (key value : Str) :
    (setHeader res key value).statusCode = res.statusCode ∧
      (setHeader res key value).statusText = res.statusText ∧
      (setHeader res key value).body = res.body := by
  rw [setHeader]
  split
  · exact ⟨rfl, rfl, rfl⟩
  · split_ifs <;> exact ⟨rfl, rfl, rfl⟩

theorem Built.setHeader {res : HttpServerResponse} (h : Built res) (key value : Str) :
    Built (setHeader res key value) := by
  obtain ⟨hcode, htext, -⟩ := setHeader_status res key value
  refine ⟨?_, ?_, fieldValue_isSome_setHeader key value h.type⟩
  · rw [htext, hcode]
    exact h.text
  · rw [hcode]
    exact h.code

theorem Built.storeBody {res : HttpServerResponse} (h : Built res) (body : Option (List UInt8)) :
    Built (storeBody res body) :=
  Built.setHeader (⟨h.text, h.code, h.type⟩ : Built { res with body := body }) _ _

theorem Built.apply {res : HttpServerResponse} (h : Built res) (c : Call) :
    Built (apply res c) := by
  rcases c with code | ⟨_ | key, _ | value⟩ | ⟨_ | body⟩ | ⟨body, length⟩ | ⟨_ | text⟩
  · exact ⟨rfl, ⟨code.le_toInt, code.toInt_lt⟩, h.type⟩
  · exact h
  · exact h
  · exact h
  · exact h.setHeader key value
  · exact h
  · exact h.storeBody (some body)
  · rw [Response.apply, httpResponseSetBodyN]
    rcases bytesOf body length.toInt with _ | bytes
    · exact h
    · exact h.storeBody _
  · exact h.setHeader contentType applicationJson
  · exact (h.setHeader contentType applicationJson).storeBody (some text)

theorem built_create : Built httpResponseCreate := by
  refine ⟨rfl, by decide, ?_⟩
  rw [isSome_fieldValue]
  exact ⟨contentType, by decide, rfl⟩

theorem built_after (calls : List Call) : Built (responseAfter calls) := by
  have hfold (res : HttpServerResponse) (h : Built res) : Built (calls.foldl apply res) := by
    induction calls generalizing res with
    | nil => exact h
    | cons c calls ih => exact ih _ (h.apply c)
  exact hfold _ built_create

theorem length_bytes_of {body : Option (ℕ → UInt8)} {length : ℤ} {bytes : List UInt8}
    (h : bytesOf body length = some bytes) :
    ((if length = 0 then none else some bytes : Option (List UInt8)).getD []) = bytes := by
  rw [bytesOf] at h
  split_ifs at h with hneg hzero
  · rw [if_pos hzero]
    exact Option.some.inj h
  · rw [if_neg hzero]
    rfl

/-- The store of a body behind a call that sets one. -/
theorem apply_sets {res : HttpServerResponse} (h : Built res) {c : Call} {body : List UInt8}
    (hc : c.sets = some body) :
    ∃ res₁ stored, apply res c = storeBody res₁ stored ∧ stored.getD [] = body ∧
      (LengthFits res₁ ↔ LengthFits res) := by
  rcases c with code | ⟨key, value⟩ | ⟨_ | text⟩ | ⟨bytes, length⟩ | ⟨_ | text⟩
  · cases hc
  · cases hc
  · cases hc
  · obtain rfl := Option.some.inj hc
    exact ⟨res, some text, rfl, rfl, Iff.rfl⟩
  · have hbytes : bytesOf bytes length.toInt = some body := hc
    refine ⟨res, if length.toInt = 0 then none else some body, ?_, length_bytes_of hbytes, Iff.rfl⟩
    rw [apply, httpResponseSetBodyN, hbytes]
  · cases hc
  · obtain rfl := Option.some.inj hc
    refine ⟨setHeader res contentType applicationJson, some text, rfl, rfl, ?_⟩
    obtain ⟨more, hnames, hmore⟩ := names_setHeader res contentType applicationJson
    rw [hmore h.type, List.append_nil] at hnames
    have hlen := congrArg List.length hnames
    rw [List.length_map, List.length_map] at hlen
    rw [LengthFits, LengthFits, isSome_fieldValue, isSome_fieldValue, hnames, hlen]

/-- After a body is stored the response has it, and its length if that fits. -/
theorem storeBody_spec (res : HttpServerResponse) (stored : Option (List UInt8)) :
    (storeBody res stored).body = stored ∧
      fieldValue contentLength (storeBody res stored).headers =
        if (fieldValue contentLength res.headers).isSome ∨ res.headers.length < maxHeaders then
          some (decimal (stored.getD []).length)
        else none :=
  ⟨(setHeader_status _ _ _).2.2, fieldValue_setHeader _ _ _⟩

/-! ### The buffer -/

theorem snprintf_ok {size : ℕ} {buf text : List UInt8} (hint : buf.length + text.length < intBound)
    (hroom : buf.length + text.length < size) : snprintf size buf text = .ok (buf ++ text) := by
  rw [snprintf, if_neg (not_le.2 hint), if_pos hroom]

/-- With room for the text the only fault is an overflow. -/
theorem snprintf_cases {size : ℕ} {buf text : List UInt8}
    (hroom : buf.length + text.length < size) :
    (snprintf size buf text = .ok (buf ++ text) ∧ (buf ++ text).length < intBound) ∨
      (snprintf size buf text = .error .overflow ∧ intBound ≤ (buf ++ text).length) := by
  rw [snprintf]
  by_cases hint : intBound ≤ buf.length + text.length
  · exact .inr ⟨if_pos hint, by rwa [List.length_append]⟩
  · rw [if_neg hint, if_pos hroom, List.length_append]
    exact .inl ⟨rfl, not_le.1 hint⟩

def headerText (hs : List (Str × Str)) : List UInt8 := hs.flatMap fun h => headerLine h ++ crlf

theorem length_headerText (hs : List (Str × Str)) :
    (headerText hs).length = (hs.map fun h => h.1.length + h.2.length + 4).sum := by
  induction hs with
  | nil => rfl
  | cons h hs ih =>
    rw [headerText] at ih ⊢
    rw [List.flatMap_cons, List.length_append, ih, List.map_cons, List.sum_cons, headerLine]
    simp only [List.length_append, colonSpace, crlf, List.length_cons, List.length_nil]
    omega

theorem writeHeaders_ok {size : ℕ} (hs : List (Str × Str)) {buf : List UInt8}
    (hint : buf.length + (headerText hs).length < intBound)
    (hroom : buf.length + (headerText hs).length < size) :
    writeHeaders size hs buf = .ok (buf ++ headerText hs) := by
  induction hs generalizing buf with
  | nil => exact congrArg Except.ok (List.append_nil buf).symm
  | cons h hs ih =>
    have hcons : headerText (h :: hs) = (headerLine h ++ crlf) ++ headerText hs := List.flatMap_cons
    rw [hcons, List.length_append] at hint hroom
    rw [writeHeaders, snprintf_ok (by omega) (by omega)]
    dsimp only [Bind.bind, Except.bind]
    rw [ih (by rw [List.length_append]; omega) (by rw [List.length_append]; omega), hcons]
    simp only [List.append_assoc]

theorem writeHeaders_cases {size : ℕ} (hs : List (Str × Str)) {buf : List UInt8}
    (hbuf : buf.length < intBound) (hroom : buf.length + (headerText hs).length < size) :
    (writeHeaders size hs buf = .ok (buf ++ headerText hs) ∧
        (buf ++ headerText hs).length < intBound) ∨
      (writeHeaders size hs buf = .error .overflow ∧
        intBound ≤ (buf ++ headerText hs).length) := by
  by_cases hint : buf.length + (headerText hs).length < intBound
  · exact .inl ⟨writeHeaders_ok hs hint hroom, by rwa [List.length_append]⟩
  · refine .inr ⟨?_, by rw [List.length_append]; exact not_lt.1 hint⟩
    induction hs generalizing buf with
    | nil => exact absurd hbuf hint
    | cons h hs ih =>
      have hcons : headerText (h :: hs) = (headerLine h ++ crlf) ++ headerText hs :=
        List.flatMap_cons
      rw [hcons, List.length_append] at hint hroom
      obtain ⟨hok, hlen⟩ | ⟨hover, -⟩ := @snprintf_cases size buf (headerLine h ++ crlf) (by omega)
      · rw [writeHeaders, hok]
        refine ih hlen ?_ ?_
        · rw [List.length_append]
          omega
        · rw [List.length_append]
          omega
      · rw [writeHeaders, hover]
        rfl

theorem ite_of_both {p : Str → Bool} {c : Prop} [Decidable c] {a b : Str} (ha : p a = true)
    (hb : p b = true) : p (if c then a else b) = true := by
  by_cases hc : c
  · rwa [if_pos hc]
  · rwa [if_neg hc]

/-- What holds of the eleven texts. -/
theorem httpStatusText_all (p : Str → Bool)
    (h : ([200, 201, 204, 400, 401, 403, 404, 500, 502, 503, 0].all fun code : ℤ =>
      p (httpStatusText code)) = true) (code : ℤ) : p (httpStatusText code) = true := by
  simp only [List.all_cons, List.all_nil, Bool.and_true, Bool.and_eq_true] at h
  obtain ⟨h200, h201, h204, h400, h401, h403, h404, h500, h502, h503, h0⟩ := h
  exact ite_of_both h200 (ite_of_both h201 (ite_of_both h204 (ite_of_both h400 (ite_of_both h401
    (ite_of_both h403 (ite_of_both h404 (ite_of_both h500 (ite_of_both h502
      (ite_of_both h503 h0)))))))))

theorem length_httpStatusText (code : ℤ) : (httpStatusText code).length ≤ 21 :=
  of_decide_eq_true
    (httpStatusText_all (fun text => decide (text.length ≤ 21)) (by decide) code)

theorem length_statusLine {res : HttpServerResponse} (h : Built res) :
    (statusLine res ++ crlf).length ≤ statusHeadroom := by
  have htext := length_httpStatusText res.statusCode
  have hcode := h.code
  have hdecimal : (decimalInt res.statusCode).length ≤ 11 := by
    rw [decimalInt]
    split_ifs
    · rw [List.length_cons]
      exact Nat.succ_le_succ ((length_decimal (by decide)).2 (by omega))
    · exact (length_decimal (by decide)).2 (by omega)
  rw [statusLine, h.text, statusHeadroom]
  simp only [List.length_append, List.length_cons, versionText, crlf, List.length_nil]
  omega

theorem wireText_eq (res : HttpServerResponse) :
    wireText res = statusLine res ++ crlf ++ headerText res.headers ++ crlf ++ res.body.getD [] :=
  rfl

theorem length_wireText_le {res : HttpServerResponse} (h : Built res) :
    (wireText res).length ≤ neededSize res := by
  have hstatus := length_statusLine h
  have hheaders := length_headerText res.headers
  rw [List.length_append] at hstatus
  rw [wireText_eq, neededSize, HttpServerResponse.bodyLength]
  simp only [List.length_append, crlf, List.length_cons, List.length_nil] at hstatus ⊢
  omega

/-- The body is written in full where its length and the sum are `int`s; otherwise there is a fault,
or less comes out than the body has. -/
theorem writeBody_cases {size : ℕ} {buf body : List UInt8} (hbuf : buf.length < intBound)
    (hroom : buf.length + body.length < size) :
    (buf.length + body.length < intBound ∧ writeBody size buf body = .ok (buf ++ body)) ∨
      (intBound ≤ buf.length + body.length ∧
        ((∃ e, writeBody size buf body = .error e ∧ e ≠ .outOfBounds) ∨
          ∃ out, writeBody size buf body = .ok out ∧ out.length < body.length)) := by
  rw [writeBody]
  by_cases hzero : body.length = 0
  · rw [if_pos hzero, List.length_eq_zero_iff.1 hzero, List.append_nil]
    exact .inl ⟨by simpa using hbuf, rfl⟩
  · rw [if_neg hzero, if_neg (by omega)]
    dsimp only
    rcases Nat.lt_or_ge body.length (2 ^ 31) with hsmall | hbig
    · have hmod : Int.bmod body.length (2 ^ 32) = body.length :=
        Int.bmod_eq_of_le (by omega) (by omega)
      rw [hmod]
      by_cases hint : buf.length + body.length < intBound
      · refine .inl ⟨hint, ?_⟩
        rw [if_neg (by omega), if_neg (by omega), List.take_of_length_le]
        rw [List.length_append]
        omega
      · exact .inr ⟨not_lt.1 hint, .inl ⟨.overflow, if_pos (by omega), by decide⟩⟩
    · rw [intBound]
      refine .inr ⟨by omega, ?_⟩
      split_ifs with hover hneg
      · exact .inl ⟨.overflow, rfl, by decide⟩
      · exact .inl ⟨.wrongLength, rfl, by decide⟩
      · refine .inr ⟨_, rfl, ?_⟩
        rw [List.length_take]
        omega

/-- The output is all of the text where its length is an `int`; otherwise there is a fault, or less
comes out than the body has. Nothing is written outside the buffer. -/
theorem serialize_cases {res : HttpServerResponse} (h : Built res) :
    ((wireText res).length < intBound ∧ httpResponseSerializeLen res = .ok (wireText res)) ∨
      (intBound ≤ (wireText res).length ∧
        ((∃ e, httpResponseSerializeLen res = .error e ∧ e ≠ .outOfBounds) ∨
          ∃ out, httpResponseSerializeLen res = .ok out ∧
            out.length < (res.body.getD []).length)) := by
  have hfit := length_wireText_le h
  have hstatus := length_statusLine h
  have hcrlf : crlf.length = 2 := rfl
  rw [wireText_eq] at hfit ⊢
  rw [statusHeadroom] at hstatus
  rw [httpResponseSerializeLen]
  simp only [List.length_append] at hfit hstatus
  have hfirst : snprintf (neededSize res + 1) [] (statusLine res ++ crlf) =
      .ok (statusLine res ++ crlf) := by
    refine snprintf_ok ?_ ?_
    · rw [List.length_nil, List.length_append, intBound]
      omega
    · rw [List.length_nil, List.length_append]
      omega
  rw [hfirst]
  dsimp only [Bind.bind, Except.bind]
  obtain ⟨hheaders, hlen⟩ | ⟨hover, hlen⟩ := @writeHeaders_cases (neededSize res + 1) res.headers
    (statusLine res ++ crlf) (by rw [List.length_append, intBound]; omega)
    (by rw [List.length_append]; omega)
  · rw [hheaders]
    dsimp only
    obtain ⟨hend, hlen'⟩ | ⟨hover, hlen'⟩ := @snprintf_cases (neededSize res + 1)
      (statusLine res ++ crlf ++ headerText res.headers) crlf
      (by simp only [List.length_append]; omega)
    · rw [hend]
      dsimp only
      have hbody := @writeBody_cases (neededSize res + 1) _ (res.body.getD []) hlen'
        (by simp only [List.length_append]; omega)
      rw [← List.length_append] at hbody
      exact hbody
    · rw [hover]
      refine .inr ⟨?_, .inl ⟨.overflow, rfl, by decide⟩⟩
      rw [List.length_append]
      omega
  · rw [hover]
    refine .inr ⟨?_, .inl ⟨.overflow, rfl, by decide⟩⟩
    rw [List.length_append, List.length_append]
    omega

/-! ### The wire -/

theorem breaks_of_all {s : Str} (h : (s.all fun c => c != 0x0d && c != 0x0a) = true) :
    ∀ c ∈ s, ¬ lineBreak c := by
  intro c hc
  have hne := List.all_eq_true.1 h c hc
  rw [Bool.and_eq_true, bne_iff_ne, bne_iff_ne] at hne
  exact not_or.2 hne

theorem statusText_breaks (code : ℤ) : ∀ c ∈ httpStatusText code, ¬ lineBreak c :=
  breaks_of_all (httpStatusText_all (fun text => text.all fun c => c != 0x0d && c != 0x0a)
    (by decide) code)

theorem digit_breaks {c : UInt8} (h : digit c) : ¬ lineBreak c := by
  rintro (rfl | rfl) <;> exact absurd h (by decide)

theorem statusLine_breaks {res : HttpServerResponse} (h : Built res)
    (hdigits : ∀ c ∈ decimalInt res.statusCode, digit c) :
    ∀ c ∈ statusLine res, ¬ lineBreak c := by
  intro c hc
  rw [statusLine, h.text, List.mem_append, List.mem_append, List.mem_cons] at hc
  rcases hc with (hversion | hcode) | rfl | htext
  · exact breaks_of_all rfl c hversion
  · exact digit_breaks (hdigits c hcode)
  · decide
  · exact statusText_breaks _ c htext

theorem length_le_headerText (hs : List (Str × Str)) : hs.length ≤ (headerText hs).length := by
  rw [length_headerText]
  induction hs with
  | nil => exact le_rfl
  | cons h hs ih =>
    rw [List.map_cons, List.sum_cons, List.length_cons]
    omega

theorem readResponse_wireText {res : HttpServerResponse} (h : Built res)
    (hcode : 100 ≤ res.statusCode ∧ res.statusCode ≤ 999)
    (hclean : ∀ f ∈ res.headers, CleanHeader f) :
    readResponse (wireText res) =
      some ⟨decimalInt res.statusCode, res.statusText, res.headers, res.body.getD []⟩ := by
  have hthree := (decimalInt_three res.statusCode).2 hcode
  have htext : wireText res = statusLine res ++ (crlf ++
      (headerText res.headers ++ (crlf ++ res.body.getD []))) := by
    rw [wireText_eq]
    simp only [List.append_assoc]
  have hlen := length_le_headerText res.headers
  rw [readResponse, htext,
    cut_append unbordered_crlf (not_infix_crlf (statusLine_breaks h hthree.2))]
  simp only [Option.bind_eq_bind, Option.bind_some]
  rw [readStatusLine_statusLine hthree, Option.bind_some, headerText,
    readFields_render hclean _ (by rw [← headerText, List.length_append]; omega)]
  rfl

/-- What comes out is right if and only if the status has three digits, no stored name or value can
pass for anything else, the length of the body is stored and all of the text has an `int` length. -/
theorem wireRight_iff {res : HttpServerResponse} (h : Built res) :
    WireRight res ↔ (100 ≤ res.statusCode ∧ res.statusCode ≤ 999) ∧
      (∀ f ∈ res.headers, CleanHeader f) ∧
      fieldValue contentLength res.headers = some (decimal (res.body.getD []).length) ∧
      (wireText res).length < intBound := by
  constructor
  · rintro ⟨out, m, hout, hread, hcode, -, hfields, hlength, hbody⟩
    obtain ⟨hdigits, hclean, hle⟩ := readResponse_some hread
    rw [hcode] at hdigits
    rw [hfields] at hclean hlength
    rw [hbody] at hlength hle
    refine ⟨(decimalInt_three _).1 hdigits, hclean, hlength, ?_⟩
    obtain ⟨hint, -⟩ | ⟨-, ⟨e, herror, -⟩ | ⟨out', hok, hshort⟩⟩ := serialize_cases h
    · exact hint
    · rw [herror] at hout
      cases hout
    · rw [hok] at hout
      obtain rfl := Except.ok.inj hout
      omega
  · rintro ⟨hcode, hclean, hlength, hint⟩
    obtain ⟨-, hok⟩ | ⟨hbig, -⟩ := serialize_cases h
    · exact ⟨_, _, hok, readResponse_wireText h hcode hclean, rfl, rfl, rfl, hlength, rfl⟩
    · exact absurd hint (not_lt.2 hbig)

end Response

end Http

end Qjs
