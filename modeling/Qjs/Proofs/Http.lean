import Qjs.Http

/-!
# What the request parser writes and returns

The headers are read within the array where their lines fit (`parseHeaders_isSome`), a parameter of
the query where its value does (`httpGetQueryParam_isSome`), and those of a route where no eleventh
is reached (`matchLoop_isSome`). Of a request written from its parts come the parts (`parse_text`).
-/

namespace Qjs

namespace Http

open FirstMatch

theorem unbordered_crlf : Unbordered crlf := unbordered_pair (by decide)

/-! ### Lines -/

theorem splitLines_none {s : Str} (h : cut crlf s = none) : splitLines s = [] := by
  rw [splitLines.eq_def]
  split
  · rfl
  · rename_i heq
    rw [h] at heq
    cases heq

theorem splitLines_some {s line rest : Str} (h : cut crlf s = some (line, rest)) :
    splitLines s = line :: splitLines rest := by
  rw [splitLines.eq_def]
  split
  · rename_i heq
    rw [h] at heq
    cases heq
  · rename_i heq
    rw [h] at heq
    obtain ⟨rfl, rfl⟩ := Prod.mk.inj (Option.some.inj heq)
    rfl

theorem parseHeaders_none {s : Str} (h : cut crlf s = none) (headers : List (Str × Str)) :
    parseHeaders s headers = some (headers, s) := by
  rw [parseHeaders.eq_def]
  split
  · rfl
  · rename_i heq
    rw [h] at heq
    cases heq

theorem parseHeaders_nil {s rest : Str} (h : cut crlf s = some ([], rest))
    (headers : List (Str × Str)) : parseHeaders s headers = some (headers, rest) := by
  rw [parseHeaders.eq_def]
  split
  · rename_i heq
    rw [h] at heq
    cases heq
  · rename_i heq
    rw [h] at heq
    obtain ⟨rfl, rfl⟩ := Prod.mk.inj (Option.some.inj heq)
    rfl

theorem parseHeaders_long {s line rest : Str} (h : cut crlf s = some (line, rest))
    (hline : line ≠ []) (hlong : ¬ line.length < 1024) (headers : List (Str × Str)) :
    parseHeaders s headers = none := by
  rw [parseHeaders.eq_def]
  split
  · rename_i heq
    rw [h] at heq
    cases heq
  · rename_i heq
    rw [h] at heq
    obtain ⟨rfl, rfl⟩ := Prod.mk.inj (Option.some.inj heq)
    rw [if_neg hline, copyTo, if_neg hlong]

theorem parseHeaders_line {s line rest : Str} (h : cut crlf s = some (line, rest))
    (hline : line ≠ []) (hshort : line.length < 1024) {headers headers' : List (Str × Str)}
    (hadd : addHeader headers line = some headers') :
    parseHeaders s headers = parseHeaders rest headers' := by
  rw [parseHeaders.eq_def]
  split
  · rename_i heq
    rw [h] at heq
    cases heq
  · rename_i heq
    rw [h] at heq
    obtain ⟨rfl, rfl⟩ := Prod.mk.inj (Option.some.inj heq)
    rw [if_neg hline, copyTo, if_pos hshort]
    simp only [hadd]

/-! ### Bounds -/

/-- The headers stay within their arrays. -/
theorem addHeader_isSome (headers : List (Str × Str)) (line : Str) :
    ∃ headers', addHeader headers line = some headers' := by
  rw [addHeader]
  rcases strchr line colon with _ | ⟨key, value⟩
  · exact ⟨headers, rfl⟩
  · by_cases h : headers.length < 50
    · simp only [if_pos h, push]
      exact ⟨_, rfl⟩
    · simp only [if_neg h]
      exact ⟨_, rfl⟩

theorem parseHeaders_isSome (s : Str) (headers : List (Str × Str)) :
    (parseHeaders s headers).isSome ↔
      ∀ line ∈ (splitLines s).takeWhile (· ≠ []), line.length < 1024 := by
  induction hn : s.length using Nat.strong_induction_on generalizing s headers with
  | h n ih =>
    rcases hcut : cut crlf s with _ | ⟨line, rest⟩
    · rw [parseHeaders_none hcut, splitLines_none hcut]
      simp
    · rw [splitLines_some hcut]
      by_cases hline : line = []
      · subst hline
        rw [parseHeaders_nil hcut]
        simp
      · rw [List.takeWhile_cons_of_pos (by simpa using hline), List.forall_mem_cons]
        by_cases hlen : line.length < 1024
        · obtain ⟨headers', hadd⟩ := addHeader_isSome headers line
          have hless : rest.length < n := by
            rw [← hn, length_of_cut hcut, crlf]
            simp only [List.length_cons, List.length_nil]
            omega
          rw [parseHeaders_line hcut hline hlen hadd, ih _ hless rest headers' rfl]
          simp [hlen]
        · rw [parseHeaders_long hcut hline hlen]
          simp [hlen]

theorem parseRequestLine_isSome (line : Str) :
    (parseRequestLine line).isSome ↔ 2 ≤ line.count space := by
  rw [parseRequestLine]
  rcases hmethod : strchr line space with _ | ⟨method, pathStart⟩
  · have := cut_singleton_eq_none.1 hmethod
    simp [List.count_eq_zero_of_not_mem this]
  · have hline := eq_of_cut hmethod
    have hcount : line.count space = pathStart.count space + 1 := by
      rw [hline]
      simp [List.count_eq_zero_of_not_mem (notMem_of_cut hmethod)]
    rcases htarget : strchr pathStart space with _ | ⟨target, version⟩
    · have := cut_singleton_eq_none.1 htarget
      simp [hcount, List.count_eq_zero_of_not_mem this, htarget]
    · have hpath : 1 ≤ pathStart.count space := by
        rw [eq_of_cut htarget]
        simp
        omega
      simp only [htarget]
      rcases strchr pathStart question with _ | ⟨path, query⟩
      · simp
        omega
      · simp only
        split_ifs
        · simp
          omega
        · simp
          omega

theorem httpParseRequest_isSome (raw : Str) : (httpParseRequest raw).isSome ↔ LinesFit raw := by
  rw [httpParseRequest, LinesFit, headerLines]
  rcases hcut : cut crlf raw with _ | ⟨first, headerStart⟩
  · simp [splitLines_none hcut]
  · rw [splitLines_some hcut]
    simp only [List.head?_cons, Option.mem_def, Option.some.injEq, forall_eq', List.tail_cons]
    by_cases hlen : first.length < 2048
    · have hspaces := parseRequestLine_isSome first
      simp only [copyTo, if_pos hlen]
      rcases hreq : parseRequestLine first with _ | line
      · rw [hreq] at hspaces
        simp at hspaces
        simp only
        simp [hlen, hspaces]
      · rw [hreq] at hspaces
        simp at hspaces
        simp only [Option.isSome_map]
        rw [parseHeaders_isSome]
        simp [hlen, hspaces]
    · simp [copyTo, hlen]

theorem httpGetQueryParam_isSome (queryString : Option Str) (key : Str) :
    (httpGetQueryParam queryString key).isSome ↔ ValueFits queryString key := by
  rcases queryString with _ | query
  · simp [httpGetQueryParam, ValueFits]
  · rw [httpGetQueryParam]
    constructor
    · intro h query' hquery before after name value tail hdec hfirst hstart hval hname hvalue htail
      obtain rfl := Option.some.inj hquery
      have hcut : cut key query = some (before, after) := by
        rw [hdec]
        exact cut_of_first fun x y hxy => hfirst x y (hdec.trans hxy)
      have heq : strchr (key ++ after) equals = some (name, value ++ tail) := by
        rw [hval]
        exact cut_singleton hname _
      have hno : ¬ (before ≠ [] ∧ before.getLast? ≠ some amp) := by
        rintro ⟨hne, hlast⟩
        exact hstart.elim hne hlast
      have htake : (value ++ tail).takeWhile (· != amp) = value := by
        rw [List.takeWhile_append_of_pos]
        · rcases tail with _ | ⟨c, tail⟩
          · simp
          · rcases htail with htail | htail
            · cases htail
            · obtain rfl := Option.some.inj htail
              simp
        · intro c hc
          simpa using fun hamp : c = amp => hvalue (hamp ▸ hc)
      simp only [hcut, if_neg hno, heq, htake, copyTo] at h
      by_contra hlong
      rw [if_neg hlong] at h
      cases h
    · intro h
      rcases hcut : cut key query with _ | ⟨before, after⟩
      · rfl
      · simp only
        split_ifs with hno
        · rfl
        · rcases heq : strchr (key ++ after) equals with _ | ⟨name, value⟩
          · rfl
          · have hlen : (value.takeWhile (· != amp)).length < 256 := by
              refine h query rfl before after name _ (value.dropWhile (· != amp)) (eq_of_cut hcut)
                (fun x y => cut_le hcut) ?_ ?_ (notMem_of_cut heq) ?_ ?_
              · by_contra hor
                push Not at hor
                exact hno hor
              · rw [List.takeWhile_append_dropWhile, eq_of_cut heq]
                rfl
              · intro hmem
                simpa using List.mem_takeWhile_imp hmem
              · rcases hdrop : value.dropWhile (· != amp) with _ | ⟨c, tail⟩
                · exact .inl rfl
                · have := List.head_dropWhile_not (· != amp) (l := value) (by simp [hdrop])
                  refine .inr ?_
                  simp only [hdrop, List.head_cons] at this
                  simpa using this
            simp [copyTo, hlen]

/-! ### Routes -/

theorem matchLoop_nil (u : Str) (params : List (Str × Str)) :
    matchLoop [] u params = some (u.isEmpty, params) := by
  rw [matchLoop]

theorem matchLoop_cons_nil (c : UInt8) (p : Str) (params : List (Str × Str)) :
    matchLoop (c :: p) [] params = some (false, params) := by
  rw [matchLoop]

theorem matchLoop_lit {c : UInt8} (hcolon : c ≠ colon) (p : Str) (d : UInt8) (u : Str)
    (params : List (Str × Str)) : matchLoop (c :: p) (d :: u) params =
      if c = star then some (true, params)
      else if c = d then matchLoop p u params
      else some (false, params) := by
  rw [matchLoop, if_neg hcolon]

theorem matchLoop_param {params : List (Str × Str)} (hroom : params.length < 10) (p : Str)
    (d : UInt8) (u : Str) : matchLoop (colon :: p) (d :: u) params =
      matchLoop (p.dropWhile (· != slash)) ((d :: u).dropWhile (· != slash))
        (params ++ [(p.takeWhile (· != slash), (d :: u).takeWhile (· != slash))]) := by
  rw [matchLoop, if_pos rfl, push, if_pos hroom]

theorem matchLoop_full {params : List (Str × Str)} (hfull : ¬ params.length < 10) (p : Str)
    (d : UInt8) (u : Str) : matchLoop (colon :: p) (d :: u) params = none := by
  rw [matchLoop, if_pos rfl, push, if_neg hfull]

/-- After `n` more parameters another one is reached, with something of the path left. -/
def Overflows (n : ℕ) (pattern path : Str) : Prop :=
  ∃ p rest u v, pattern = p ++ colon :: rest ∧ path = u ++ v ∧ v ≠ [] ∧ Fits n p u

theorem not_overflows_nil {n : ℕ} {u : Str} : ¬ Overflows n [] u := by
  rintro ⟨p, rest, -, -, h, -⟩
  simp at h

theorem not_overflows_nil_right {n : ℕ} {p : Str} : ¬ Overflows n p [] := by
  rintro ⟨-, -, u, v, -, h, hv, -⟩
  exact hv (List.append_eq_nil_iff.1 h.symm).2

theorem overflows_zero (p : Str) (d : UInt8) (u : Str) : Overflows 0 (colon :: p) (d :: u) :=
  ⟨[], p, [], d :: u, rfl, rfl, by simp, .nil⟩

theorem overflows_lit {n : ℕ} {c d : UInt8} {p u : Str} (hcolon : c ≠ colon) :
    Overflows n (c :: p) (d :: u) ↔ c ≠ star ∧ c = d ∧ Overflows n p u := by
  constructor
  · rintro ⟨q, rest, w, v, hp, hu, hv, hfits⟩
    rcases hfits with _ | ⟨e, _, hstar, hfits⟩ | ⟨name, value, _, _, _⟩
    · exact absurd (List.cons.inj hp).1 hcolon
    · obtain ⟨rfl, rfl⟩ := List.cons.inj hp
      obtain ⟨rfl, rfl⟩ := List.cons.inj hu
      exact ⟨hstar, rfl, _, rest, _, v, rfl, rfl, hv, hfits⟩
    · exact absurd (List.cons.inj hp).1 hcolon
  · rintro ⟨hstar, rfl, q, rest, w, v, rfl, rfl, hv, hfits⟩
    exact ⟨c :: q, rest, c :: w, v, rfl, rfl, hv, .lit c hcolon hstar hfits⟩

theorem dropWhile_append_slash {a : Str} (h : slash ∉ a) (b : Str) :
    (a ++ slash :: b).dropWhile (· != slash) = slash :: b := by
  rw [List.dropWhile_append_of_pos]
  · simp
  · intro c hc
    simpa using fun hs : c = slash => h (hs ▸ hc)

theorem slash_notMem_takeWhile (s : Str) : slash ∉ s.takeWhile (· != slash) := by
  intro h
  simpa using List.mem_takeWhile_imp h

/-- What follows the name of a parameter is nothing or starts with a slash. -/
theorem dropWhile_slash (s : Str) :
    s.dropWhile (· != slash) = [] ∨ ∃ t, s.dropWhile (· != slash) = slash :: t := by
  rcases h : s.dropWhile (· != slash) with _ | ⟨c, t⟩
  · exact .inl rfl
  · have hc := List.head_dropWhile_not (· != slash) (l := s) (by simp [h])
    simp only [h, List.head_cons, bne_eq_false_iff_eq] at hc
    exact .inr ⟨t, by rw [hc]⟩

theorem overflows_param {n : ℕ} {d : UInt8} {p u : Str} :
    Overflows (n + 1) (colon :: p) (d :: u) ↔
      Overflows n (p.dropWhile (· != slash)) ((d :: u).dropWhile (· != slash)) := by
  constructor
  · rintro ⟨q, rest, w, v, hp, hu, hv, hfits⟩
    generalize hn : n + 1 = m at hfits
    rcases hfits with _ | ⟨e, hcolon, _, _⟩ |
        @⟨_, p', u', name, value, hname, hvalue, hfits⟩
    · cases hn
    · exact absurd (List.cons.inj hp).1.symm hcolon
    · obtain rfl := Nat.succ.inj hn
      have htail : p = name ++ slash :: (p' ++ colon :: rest) := by
        rw [(List.cons.inj hp).2]
        exact List.append_assoc name (slash :: p') (colon :: rest)
      rw [List.append_assoc, List.cons_append] at hu
      rw [htail, hu, dropWhile_append_slash hname, dropWhile_append_slash hvalue]
      exact ⟨_, rest, _, v, rfl, rfl, hv, hfits⟩
  · rintro ⟨q, rest, w, v, hp, hu, hv, hfits⟩
    have hq : ∃ q', q = slash :: q' := by
      rcases dropWhile_slash p with hnil | ⟨t, ht⟩
      · rw [hnil] at hp
        simp at hp
      · rw [ht] at hp
        rcases q with _ | ⟨c, q⟩
        · exact absurd (List.cons.inj hp).1 (by decide)
        · exact ⟨q, by rw [← (List.cons.inj hp).1]⟩
    obtain ⟨q, rfl⟩ := hq
    have hw : ∃ w', w = slash :: w' := by
      cases hfits with
      | lit c _ _ h => exact ⟨_, rfl⟩
    obtain ⟨w, rfl⟩ := hw
    refine ⟨colon :: (p.takeWhile (· != slash) ++ slash :: q), rest,
      (d :: u).takeWhile (· != slash) ++ slash :: w, v, ?_, ?_, hv,
      .param _ _ (slash_notMem_takeWhile _) (slash_notMem_takeWhile _) hfits⟩
    · rw [List.cons_append, List.append_assoc, ← hp, List.takeWhile_append_dropWhile]
    · rw [List.append_assoc, ← hu, List.takeWhile_append_dropWhile]

theorem matchLoop_isSome (p u : Str) (params : List (Str × Str)) (n : ℕ)
    (hn : params.length + n = 10) :
    (matchLoop p u params).isSome ↔ ¬ Overflows n p u := by
  induction hlen : p.length using Nat.strong_induction_on generalizing p u params n with
  | h k ih =>
    rcases p with _ | ⟨c, p⟩
    · simp [matchLoop_nil, not_overflows_nil]
    · rcases u with _ | ⟨d, u⟩
      · simp [matchLoop_cons_nil, not_overflows_nil_right]
      · rw [List.length_cons] at hlen
        by_cases hcolon : c = colon
        · subst hcolon
          rcases n with _ | n
          · rw [matchLoop_full (by omega)]
            simp [overflows_zero]
          · have hless : (p.dropWhile (· != slash)).length < k := by
              have := (@List.dropWhile_suffix _ p (· != slash)).length_le
              omega
            rw [matchLoop_param (by omega), ih _ hless _ _ _ n (by simp; omega) rfl,
              overflows_param]
        · rw [matchLoop_lit hcolon, overflows_lit hcolon]
          by_cases hstar : c = star
          · simp [hstar]
          · by_cases hd : c = d
            · rw [if_neg hstar, if_pos hd, ih _ (by omega) _ _ _ n hn rfl]
              subst hd
              simp [hstar]
            · simp [hstar, hd]

theorem httpRouteMatches_isSome (pattern path : Str) (req : HttpRequest) :
    (httpRouteMatches pattern path req).isSome ↔ ParamsFit pattern path := by
  rw [httpRouteMatches, ParamsFit]
  by_cases heq : pattern = path
  · simp [heq]
  · rw [if_neg heq, Option.isSome_map, matchLoop_isSome _ _ _ 10 rfl]
    constructor
    · intro h
      exact .inr fun p rest u v hp hu hv hf => h ⟨p, rest, u, v, hp, hu, hv, hf⟩
    · rintro (h | h) ⟨p, rest, u, v, hp, hu, hv, hf⟩
      · exact heq h
      · exact h p rest u v hp hu hv hf

/-! ### A request written from its parts -/

theorem not_crlf_append {c : UInt8} (hc : c ∉ crlf) {a b : Str} (ha : ¬ crlf <:+: a)
    (hb : ¬ crlf <:+: b) : ¬ crlf <:+: a ++ c :: b := by
  intro h
  rcases infix_append_cons hc h with h | h
  · exact ha h
  · exact hb h

theorem not_crlf_nil : ¬ crlf <:+: ([] : Str) := by
  rw [List.infix_nil]
  simp [crlf]

theorem Field.WellFormed.line {f : Field} (h : f.WellFormed) : ¬ crlf <:+: f.line := by
  have hpad : ∀ n, ¬ crlf <:+: List.replicate n space ++ f.value := by
    intro n
    induction n with
    | zero => exact h.value_crlf
    | succ n ih => exact not_crlf_append (a := []) (by decide) not_crlf_nil ih
  exact not_crlf_append (by decide) h.key_crlf (hpad f.pad)

theorem Parts.WellFormed.firstLine {r : Parts} (h : r.WellFormed) : ¬ crlf <:+: r.firstLine :=
  not_crlf_append (by decide) h.method_crlf
    (not_crlf_append (by decide) h.target_crlf h.version_crlf)

theorem parseRequestLine_firstLine {r : Parts} (h : r.WellFormed) :
    parseRequestLine r.firstLine = some ⟨r.method, r.path, r.query, r.version⟩ := by
  rw [parseRequestLine, Parts.firstLine, strchr, cut_singleton h.method_space]
  simp only [strchr, cut_singleton h.target_space]
  rcases hq : r.query with _ | query
  · have htarget : r.target = r.path := by rw [Parts.target, hq]
    rw [htarget]
    rcases hcut : cut [question] (r.path ++ space :: r.version) with _ | ⟨path, query⟩
    · rfl
    · have hle := length_le_of_cut hcut h.path_question
      simp only
      rw [if_neg (by omega)]
  · have htarget : r.target = r.path ++ question :: query := by rw [Parts.target, hq]
    rw [htarget, List.append_assoc, List.cons_append, cut_singleton h.path_question]
    simp

theorem addHeader_line {f : Field} (h : f.WellFormed) {headers : List (Str × Str)}
    (hroom : headers.length < 50) :
    addHeader headers f.line = some (headers ++ [(f.key, f.value)]) := by
  have hvalue : (List.replicate f.pad space ++ f.value).dropWhile (· == space) = f.value := by
    rw [List.dropWhile_append_of_pos (by simp)]
    rcases hv : f.value with _ | ⟨c, v⟩
    · rfl
    · have hc : c ≠ space := by simpa [hv] using h.value_space
      rw [List.dropWhile_cons_of_neg (by simpa using hc)]
  rw [addHeader, Field.line, strchr, cut_singleton h.key_colon]
  simp only [if_pos hroom, push, hvalue]

theorem parseHeaders_fields (body : Str) : ∀ (fields : List Field) (headers : List (Str × Str)),
    (∀ f ∈ fields, f.WellFormed) → (∀ f ∈ fields, f.line.length < 1024) →
    headers.length + fields.length ≤ 50 →
    parseHeaders (fields.flatMap (fun f => f.line ++ crlf) ++ (crlf ++ body)) headers =
      some (headers ++ fields.map fun f => (f.key, f.value), body)
  | [], headers, _, _, _ => by
    rw [List.flatMap_nil, List.nil_append, parseHeaders_nil (cut_self crlf body)]
    simp
  | f :: fields, headers, hwf, hshort, hroom => by
    have hf := hwf f (by simp)
    have hcut : cut crlf ((f :: fields).flatMap (fun f => f.line ++ crlf) ++ (crlf ++ body)) =
        some (f.line, fields.flatMap (fun f => f.line ++ crlf) ++ (crlf ++ body)) := by
      rw [List.flatMap_cons, List.append_assoc, List.append_assoc]
      exact cut_append unbordered_crlf hf.line _
    have hne : f.line ≠ [] := by simp [Field.line]
    rw [List.length_cons] at hroom
    rw [parseHeaders_line hcut hne (hshort f (by simp)) (addHeader_line hf (by omega)),
      parseHeaders_fields body fields _ (fun g hg => hwf g (by simp [hg]))
        (fun g hg => hshort g (by simp [hg])) (by simp; omega)]
    simp

theorem parse_text {r : Parts} (h : r.WellFormed) (hlim : r.WithinLimits) :
    httpParseRequest r.text = some (some r.request) := by
  rw [httpParseRequest, Parts.text, cut_append unbordered_crlf h.firstLine]
  simp only [copyTo, if_pos hlim.firstLine, parseRequestLine_firstLine h]
  rw [parseHeaders_fields r.body r.fields [] h.fields hlim.line (by simpa using hlim.fields)]
  rfl

/-! ### The parser -/

/-- What is written stays in its array exactly where it fits, and a request within the limits is
parsed to its parts. -/
theorem httpRequests_iff (raw key pattern path : Str) (query : Option Str) (req : HttpRequest)
    (r : Parts) :
    ((httpParseRequest raw).isSome ∧ (httpGetQueryParam query key).isSome ∧
      (httpRouteMatches pattern path req).isSome ∧
      (r.WellFormed → r.WithinLimits → httpParseRequest r.text = some (some r.request))) ↔
    LinesFit raw ∧ ValueFits query key ∧ ParamsFit pattern path := by
  rw [httpParseRequest_isSome, httpGetQueryParam_isSome, httpRouteMatches_isSome]
  constructor
  · rintro ⟨hraw, hquery, hroute, -⟩
    exact ⟨hraw, hquery, hroute⟩
  · rintro ⟨hraw, hquery, hroute⟩
    exact ⟨hraw, hquery, hroute, parse_text⟩

/-- A request line of 2048 bytes is written over the end of its array. -/
theorem long_requestLine_overruns :
    httpParseRequest (List.replicate 2048 0x41 ++ (crlf ++ crlf)) = none := by
  have hline : ¬ crlf <:+: List.replicate 2048 (0x41 : UInt8) := by
    intro h
    have := List.eq_of_mem_replicate (h.subset (a := 0x0d) (by simp [crlf]))
    exact absurd this (by decide)
  have hlong : ¬ (List.replicate 2048 (0x41 : UInt8)).length < 2048 := by
    rw [List.length_replicate]
    exact lt_irrefl _
  rw [httpParseRequest, cut_append unbordered_crlf hline]
  simp only [copyTo, if_neg hlong]

end Http

end Qjs
