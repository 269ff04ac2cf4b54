import Qjs.HttpParams
import Qjs.Proofs.Http

/-!
# Parameters of the query and of the path

A lookup in the query takes the value of the pair at the first occurrence of the key
(`httpGetQueryParam_pair`), so it is right just where that is the pair to find (`queryParam_iff`).
The loop over a pattern goes as far as `walk` does (`matchLoop_walk`), which is where the routing
differs from the pattern's meaning (`routed_iff`).
-/

namespace Qjs

namespace Http

open FirstMatch

/-! ### The query -/

section Query

variable {ps pre post : List (Str × Str)} {p : Str × Str} {key before after : Str}

theorem queryText_cons (p q : Str × Str) (ps : List (Str × Str)) :
    queryText (p :: q :: ps) = pairText p ++ amp :: queryText (q :: ps) := by
  rw [queryText, List.map_cons, List.map_cons, List.intercalate_cons_cons, List.append_assoc]
  rfl

theorem queryText_append : ∀ pre : List (Str × Str),
    queryText (pre ++ p :: post) = pairsBefore pre ++ queryText (p :: post)
  | [] => rfl
  | [q] => by
    rw [List.singleton_append, queryText_cons]
    simp [pairsBefore]
  | q :: r :: pre => by
    have ih := queryText_append (r :: pre)
    rw [List.cons_append, List.cons_append, queryText_cons, ← List.cons_append, ih]
    simp [pairsBefore]

/-- What follows a pair is nothing or starts with an `&`. -/
theorem queryText_pair (p : Str × Str) : ∀ post : List (Str × Str), ∃ tail,
    queryText (p :: post) = p.1 ++ equals :: (p.2 ++ tail) ∧ (tail = [] ∨ tail.head? = some amp)
  | [] => ⟨[], by simp [queryText, pairText], .inl rfl⟩
  | q :: post => ⟨amp :: queryText (q :: post), by rw [queryText_cons]; simp [pairText], .inr rfl⟩

theorem PairsValid.tail (h : PairsValid (p :: ps)) : PairsValid ps :=
  ⟨fun q hq => h.key_amp q (List.mem_cons_of_mem p hq),
    fun q hq => h.key_equals q (List.mem_cons_of_mem p hq),
    fun q hq => h.value_amp q (List.mem_cons_of_mem p hq)⟩

theorem PairsValid.amp_notMem (h : PairsValid ps) (hp : p ∈ ps) : amp ∉ pairText p := by
  have hkey := h.key_amp p hp
  have hvalue := h.value_amp p hp
  have hne : amp ≠ equals := by decide
  simp [pairText, hkey, hvalue, hne]

/-- An `&` is only between pairs. -/
theorem exists_pair : ∀ {ps : List (Str × Str)} {before rest : Str}, PairsValid ps → ps ≠ [] →
    queryText ps = before ++ rest → before = [] ∨ before.getLast? = some amp →
    ∃ pre p post, ps = pre ++ p :: post ∧ before = pairsBefore pre
  | [], _, _, _, hne, _, _ => absurd rfl hne
  | p :: ps, before, rest, h, _, htext, hbefore => by
    rcases hbefore with rfl | hlast
    · exact ⟨[], p, ps, rfl, rfl⟩
    · obtain ⟨b, rfl⟩ := List.getLast?_eq_some_iff.1 hlast
      have hamp := h.amp_notMem List.mem_cons_self
      rw [List.append_assoc, List.singleton_append] at htext
      rcases ps with _ | ⟨q, ps⟩
      · have hmem : amp ∈ pairText p := by
          rw [show queryText [p] = pairText p by simp [queryText]] at htext
          rw [htext]
          simp
        exact absurd hmem hamp
      · rw [queryText_cons] at htext
        rcases List.append_eq_append_iff.1 htext with ⟨m, hb, hm⟩ | ⟨m, hpm, hm⟩
        · rcases m with _ | ⟨d, m⟩
          · rw [List.append_nil] at hb
            exact ⟨[p], q, ps, rfl, by simp [pairsBefore, hb]⟩
          · obtain ⟨rfl, htail⟩ := List.cons.inj hm
            obtain ⟨pre, r, post, hps, hpre⟩ := @exists_pair (q :: ps) (m ++ [amp]) rest h.tail
              (by simp) (by rw [htail, List.append_assoc]; rfl) (.inr (by simp))
            refine ⟨p :: pre, r, post, by rw [hps]; rfl, ?_⟩
            rw [hb, List.append_assoc, List.cons_append, hpre]
            simp [pairsBefore]
        · rcases m with _ | ⟨d, m⟩
          · rw [List.append_nil] at hpm
            exact ⟨[p], q, ps, rfl, by simp [pairsBefore, hpm]⟩
          · obtain ⟨rfl, -⟩ := List.cons.inj hm
            exact absurd (hpm ▸ by simp) hamp

theorem firstValue_eq_none : firstValue ps key = none ↔ ∀ p ∈ ps, p.1 ≠ key := by
  simp [firstValue]

/-- The text of a pair's key stands where the pair does. -/
theorem key_occurs (pre : List (Str × Str)) (p : Str × Str) (post : List (Str × Str)) :
    ∃ y, queryText (pre ++ p :: post) = pairsBefore pre ++ (p.1 ++ y) := by
  obtain ⟨tail, htail, -⟩ := queryText_pair p post
  exact ⟨_, by rw [queryText_append, htail]⟩

theorem length_pairsBefore_lt {a b : List (Str × Str)} (q : Str × Str) :
    (pairsBefore a).length < (pairsBefore (a ++ q :: b)).length := by
  simp only [pairsBefore, List.flatMap_append, List.flatMap_cons, List.length_append,
    List.length_singleton]
  omega

/-- The pair at the first occurrence of its key is the first with the key. -/
theorem firstValue_of_cut
    (hcut : cut p.1 (queryText (pre ++ p :: post)) = some (pairsBefore pre, after)) :
    firstValue (pre ++ p :: post) p.1 = some p.2 := by
  have hpre : ∀ q ∈ pre, q.1 ≠ p.1 := by
    intro q hq hkey
    obtain ⟨a, b, rfl⟩ := List.append_of_mem hq
    obtain ⟨y, hy⟩ := key_occurs a q (b ++ p :: post)
    rw [List.append_assoc, List.cons_append, hkey] at *
    have hle := cut_le hcut hy
    have hlt := @length_pairsBefore_lt a b q
    omega
  have hnone : (pre.find? fun q => q.1 = p.1) = none := by simpa using hpre
  rw [firstValue, List.find?_append, hnone, Option.none_or,
    List.find?_cons_of_pos (by simp)]
  rfl

theorem pairsBefore_start (pre : List (Str × Str)) :
    pairsBefore pre = [] ∨ (pairsBefore pre).getLast? = some amp := by
  rcases List.eq_nil_or_concat pre with rfl | ⟨init, q, rfl⟩
  · exact .inl rfl
  · exact .inr (by simp [pairsBefore])

/-- Where the first occurrence of the key is not at the start of a parameter, the lookup gives up.
-/
theorem httpGetQueryParam_inside {query : Str} (hcut : cut key query = some (before, after))
    (hstart : ¬ (before = [] ∨ before.getLast? = some amp)) :
    httpGetQueryParam (some query) key = some none := by
  rw [httpGetQueryParam, hcut]
  dsimp only
  rw [if_pos (not_or.1 hstart)]

/-- At the start of a pair it is the pair's value that is copied. -/
theorem httpGetQueryParam_pair (h : PairsValid (pre ++ p :: post))
    (hcut : cut key (queryText (pre ++ p :: post)) = some (pairsBefore pre, after)) :
    httpGetQueryParam (some (queryText (pre ++ p :: post))) key
      = if p.2.length < 256 then some (some p.2) else none := by
  obtain ⟨tail, htext, htail⟩ := queryText_pair p post
  have hmem : p ∈ pre ++ p :: post := List.mem_append_right pre List.mem_cons_self
  have hbefore : ¬ (pairsBefore pre ≠ [] ∧ (pairsBefore pre).getLast? ≠ some amp) := by
    rw [not_and_or, not_not, not_not]
    exact pairsBefore_start pre
  have hkey : key ++ after = p.1 ++ equals :: (p.2 ++ tail) := by
    have := eq_of_cut hcut
    rw [queryText_append, List.append_cancel_left_eq] at this
    rw [← this, htext]
  have hvalue : (p.2 ++ tail).takeWhile (· != amp) = p.2 := by
    rw [List.takeWhile_append_of_pos]
    · rcases htail with rfl | hhead
      · simp
      · obtain ⟨t, rfl⟩ := List.head?_eq_some_iff.1 hhead
        simp
    · intro c hc
      simpa using fun hamp : c = amp => h.value_amp p hmem (hamp ▸ hc)
  rw [httpGetQueryParam, hcut]
  dsimp only
  rw [if_neg hbefore, hkey, strchr, cut_singleton (h.key_equals p hmem)]
  dsimp only
  rw [hvalue, copyTo]
  split_ifs <;> rfl

end Query

/-- A lookup returns the value of the first pair with the key just where the key's first occurrence
in the text is at such a pair, or is none and does not hide one. -/
theorem queryParam_iff (ps : List (Str × Str)) (key : Str) (h : PairsValid ps) :
    httpGetQueryParam (some (queryText ps)) key = some (firstValue ps key) ↔ QueryFits ps key := by
  rcases hcut : cut key (queryText ps) with _ | ⟨before, after⟩
  · have hnone : firstValue ps key = none := by
      rw [firstValue_eq_none]
      rintro p hp rfl
      obtain ⟨pre, post, rfl⟩ := List.append_of_mem hp
      obtain ⟨y, hy⟩ := key_occurs pre p post
      exact cut_eq_none.1 hcut ⟨pairsBefore pre, y, by rw [hy, List.append_assoc]⟩
    have hleft : httpGetQueryParam (some (queryText ps)) key = some none := by
      rw [httpGetQueryParam, hcut]
    refine iff_of_true (by rw [hleft, hnone]) ⟨?_, ?_⟩ <;> simp [hcut]
  · by_cases hstart : before = [] ∨ before.getLast? = some amp
    · by_cases hnil : ps = []
      · subst hnil
        obtain ⟨rfl, rfl⟩ : key = [] ∧ before = [] := by
          have := eq_of_cut hcut
          simp [queryText] at this
          exact ⟨this.2.1, this.1⟩
        refine iff_of_true (by decide) ⟨by simp, ?_⟩
        intro pre p post _ hps
        simp at hps
      · constructor
        · intro hget
          refine ⟨?_, ?_⟩
          · intro b a hba hne hlast
            rw [hcut] at hba
            cases hba
            exact (hstart.elim hne hlast).elim
          · rintro pre p post a rfl hcut'
            rw [httpGetQueryParam_pair h hcut'] at hget
            split_ifs at hget with hlen
            exact ⟨hlen, .inr (Option.some.inj hget).symm⟩
        · intro hfits
          obtain ⟨pre, p, post, rfl, rfl⟩ := exists_pair h hnil (eq_of_cut hcut) hstart
          obtain ⟨hlen, hkey⟩ := hfits.start pre p post after rfl hcut
          rw [httpGetQueryParam_pair h hcut, if_pos hlen]
          rcases hkey with rfl | hkey
          · rw [firstValue_of_cut hcut]
          · rw [hkey]
    · rw [httpGetQueryParam_inside hcut hstart, Option.some.injEq, eq_comm, firstValue_eq_none]
      constructor
      · intro hall
        refine ⟨fun _ _ _ _ _ => hall, ?_⟩
        intro pre p post a _ hcut'
        rw [hcut] at hcut'
        cases hcut'
        exact absurd (pairsBefore_start pre) hstart
      · intro hfits
        exact hfits.inside before after hcut (not_or.1 hstart).1 (not_or.1 hstart).2

/-- In `k=1` the key `k` is found. -/
theorem queryParam_iff_onePair :
    httpGetQueryParam (some (queryText [([0x6b], [0x31])])) [0x6b]
        = some (firstValue [([0x6b], [0x31])] [0x6b])
      ↔ QueryFits [([0x6b], [0x31])] [0x6b] :=
  queryParam_iff [([0x6b], [0x31])] [0x6b] ⟨by decide, by decide, by decide⟩

/-- In `xk=1&k=2` the key `k` is not found. -/
theorem key_hidden_by_suffix :
    PairsValid [([0x78, 0x6b], [0x31]), ([0x6b], [0x32])]
      ∧ httpGetQueryParam (some (queryText [([0x78, 0x6b], [0x31]), ([0x6b], [0x32])])) [0x6b]
        = some none
      ∧ firstValue [([0x78, 0x6b], [0x31]), ([0x6b], [0x32])] [0x6b] = some [0x32] :=
  ⟨⟨by decide, by decide, by decide⟩, by decide, by decide⟩

/-! ### How far a pattern goes -/

section Walk

variable {p u : Str} {b : List (Str × Str)}

@[simp] theorem walk_nil (u : Str) : walk [] u = ([], [], u) := by rw [walk]

@[simp] theorem walk_cons_nil (c : UInt8) (p : Str) : walk (c :: p) [] = ([], c :: p, []) := by
  rw [walk]

theorem walk_param (p : Str) (d : UInt8) (u : Str) : walk (colon :: p) (d :: u) =
    ((p.takeWhile (· != slash), (d :: u).takeWhile (· != slash)) ::
        (walk (p.dropWhile (· != slash)) ((d :: u).dropWhile (· != slash))).1,
      (walk (p.dropWhile (· != slash)) ((d :: u).dropWhile (· != slash))).2) := by
  rw [walk, if_pos rfl]

theorem walk_star (p : Str) (d : UInt8) (u : Str) :
    walk (star :: p) (d :: u) = ([], star :: p, d :: u) := by
  rw [walk, if_neg (by decide), if_pos rfl]

theorem walk_lit {c : UInt8} (hcolon : c ≠ colon) (hstar : c ≠ star) (p : Str) (d : UInt8)
    (u : Str) : walk (c :: p) (d :: u) = if c = d then walk p u else ([], c :: p, d :: u) := by
  rw [walk, if_neg hcolon, if_neg hstar]

/-- What the loop answers where it stops. -/
def verdict (r : Str × Str) : Bool :=
  decide (r = ([], []) ∨ (r.1.head? = some star ∧ r.2 ≠ []))

/-- The loop goes as far as the walk, if there are ten parameters at most. -/
theorem matchLoop_walk (p u : Str) (params : List (Str × Str)) (hten : params.length ≤ 10) :
    matchLoop p u params = if params.length + (walk p u).1.length ≤ 10
      then some (verdict (walk p u).2, params ++ (walk p u).1) else none := by
  induction hlen : p.length using Nat.strong_induction_on generalizing p u params with
  | h k ih =>
    rcases p with _ | ⟨c, p⟩
    · rw [matchLoop_nil, walk_nil, if_pos (by simpa using hten)]
      cases u <;> simp [verdict]
    · rcases u with _ | ⟨d, u⟩
      · rw [matchLoop_cons_nil, walk_cons_nil, if_pos (by simpa using hten)]
        simp [verdict]
      · rw [List.length_cons] at hlen
        by_cases hcolon : c = colon
        · subst hcolon
          have hless : (p.dropWhile (· != slash)).length < k := by
            have := (@List.dropWhile_suffix _ p (· != slash)).length_le
            omega
          rw [walk_param]
          dsimp only
          rw [List.length_cons]
          by_cases hroom : params.length < 10
          · rw [matchLoop_param hroom, ih _ hless _ _ _ (by simp; omega) rfl, List.append_assoc,
              List.singleton_append, List.length_append, List.length_singleton, Nat.add_assoc,
              Nat.add_comm 1]
          · rw [matchLoop_full hroom, if_neg (by omega)]
        · rw [matchLoop_lit hcolon]
          by_cases hstar : c = star
          · subst hstar
            rw [if_pos rfl, walk_star, if_pos (by simpa using hten)]
            simp [verdict]
          · rw [if_neg hstar, walk_lit hcolon hstar]
            by_cases hd : c = d
            · rw [if_pos hd, if_pos hd, ih _ (by omega) _ _ _ hten rfl]
            · rw [if_neg hd, if_neg hd, if_pos (by simpa using hten)]
              simp [verdict, hstar]

theorem takeWhile_ended {a : Str} (h : slash ∉ a) {t : Str} (ht : Ended t) :
    (a ++ t).takeWhile (· != slash) = a ∧ (a ++ t).dropWhile (· != slash) = t := by
  have hall : ∀ c ∈ a, (c != slash) = true := fun c hc => by
    simpa using fun hs : c = slash => h (hs ▸ hc)
  rw [List.takeWhile_append_of_pos hall, List.dropWhile_append_of_pos hall]
  rcases ht with rfl | hhead
  · simp
  · obtain ⟨t, rfl⟩ := List.head?_eq_some_iff.1 hhead
    simp

theorem ended_dropWhile (s : Str) : Ended (s.dropWhile (· != slash)) := by
  rcases dropWhile_slash s with h | ⟨t, h⟩ <;> rw [h]
  · exact .inl rfl
  · exact .inr rfl

theorem walk_of_matches (h : Matches p u b) : (walk p u).1 = b ∧ (∀ q ∈ b, q.2 ≠ [])
    ∧ ((walk p u).2 = ([], []) ∨ (walk p u).2.1.head? = some star) := by
  induction h with
  | nil => simp
  | lit c hcolon hstar _ ih => rwa [walk_lit hcolon hstar, if_pos rfl]
  | @param p u b name value hname hvalue hne hp hu _ ih =>
    obtain ⟨hp1, hp2⟩ := takeWhile_ended hname hp
    obtain ⟨hu1, hu2⟩ := takeWhile_ended hvalue hu
    obtain ⟨d, v, rfl⟩ := List.exists_cons_of_ne_nil hne
    rw [List.cons_append] at hu1 hu2 ⊢
    rw [walk_param, hp1, hp2, hu1, hu2]
    obtain ⟨hb, hall, hend⟩ := ih
    refine ⟨by rw [hb], ?_, hend⟩
    rintro q (_ | ⟨_, hq⟩)
    · exact hne
    · exact hall q hq
  | star p u => cases u <;> simp [walk_star]

theorem matches_of_walk (p u : Str) (hall : ∀ q ∈ (walk p u).1, q.2 ≠ [])
    (hend : (walk p u).2 = ([], []) ∨ (walk p u).2.1.head? = some star) :
    Matches p u (walk p u).1 := by
  induction hlen : p.length using Nat.strong_induction_on generalizing p u with
  | h k ih =>
    rcases p with _ | ⟨c, p⟩
    · rw [walk_nil] at hend ⊢
      have hu : u = [] := by simpa using hend
      rw [hu]
      exact .nil
    · rcases u with _ | ⟨d, u⟩
      · rw [walk_cons_nil] at hend ⊢
        have hc : c = star := by simpa using hend
        rw [hc]
        exact .star p []
      · rw [List.length_cons] at hlen
        by_cases hcolon : c = colon
        · subst hcolon
          have hless : (p.dropWhile (· != slash)).length < k := by
            have := (@List.dropWhile_suffix _ p (· != slash)).length_le
            omega
          rw [walk_param] at hall hend ⊢
          have hm := Matches.param _ _ (slash_notMem_takeWhile p) (slash_notMem_takeWhile (d :: u))
            (hall _ List.mem_cons_self) (ended_dropWhile p) (ended_dropWhile (d :: u))
            (ih _ hless _ _ (fun q hq => hall q (List.mem_cons_of_mem _ hq)) hend rfl)
          rwa [List.takeWhile_append_dropWhile, List.takeWhile_append_dropWhile] at hm
        · by_cases hstar : c = star
          · subst hstar
            rw [walk_star]
            exact .star p (d :: u)
          · rw [walk_lit hcolon hstar] at hall hend ⊢
            by_cases hd : c = d
            · subst hd
              rw [if_pos rfl] at hall hend ⊢
              exact .lit c hcolon hstar (ih _ (by omega) _ _ hall hend rfl)
            · rw [if_neg hd] at hend
              simp [hstar] at hend

/-- A pattern that is the path itself matches: each name is bound to itself with its colon. -/
theorem walk_self (u : Str) : (∀ q ∈ (walk u u).1, q.2 ≠ [])
    ∧ ((walk u u).2 = ([], []) ∨ (walk u u).2.1.head? = some star) := by
  induction hlen : u.length using Nat.strong_induction_on generalizing u with
  | h k ih =>
    rcases u with _ | ⟨c, u⟩
    · simp
    · rw [List.length_cons] at hlen
      by_cases hcolon : c = colon
      · subst hcolon
        have hless : (u.dropWhile (· != slash)).length < k := by
          have := (@List.dropWhile_suffix _ u (· != slash)).length_le
          omega
        have hdrop : (colon :: u).dropWhile (· != slash) = u.dropWhile (· != slash) :=
          List.dropWhile_cons_of_pos (by decide)
        have htake : (colon :: u).takeWhile (· != slash) = colon :: u.takeWhile (· != slash) :=
          List.takeWhile_cons_of_pos (by decide)
        rw [walk_param, hdrop, htake]
        obtain ⟨hall, hend⟩ := ih _ hless _ rfl
        refine ⟨?_, hend⟩
        rintro q (_ | ⟨_, hq⟩)
        · simp
        · exact hall q hq
      · by_cases hstar : c = star
        · subst hstar
          simp [walk_star]
        · rw [walk_lit hcolon hstar, if_pos rfl]
          exact ih _ (by omega) _ rfl

end Walk

/-! ### The routing -/

section Routing

variable {η : Type} {routes rs : List (HttpRoute η)} {r : HttpRoute η} {req req' : HttpRequest}
  {b : List (Str × Str)}

theorem httpRouteMatches_self (path : Str) (req : HttpRequest) :
    httpRouteMatches path path req = some (true, req) := if_pos rfl

theorem httpRouteMatches_walk {pattern path : Str} (hne : pattern ≠ path) (req : HttpRequest) :
    httpRouteMatches pattern path req = if (walk pattern path).1.length ≤ 10
      then some (verdict (walk pattern path).2, { req with params := (walk pattern path).1 })
      else none := by
  rw [httpRouteMatches, if_neg hne, matchLoop_walk _ _ _ (Nat.zero_le _)]
  simp only [List.length_nil, Nat.zero_add, List.nil_append]
  split_ifs <;> rfl

theorem matches_self (path : Str) : Matches path path (walk path path).1 :=
  matches_of_walk path path (walk_self path).1 (walk_self path).2

theorem Matches.unique {p u : Str} {b b' : List (Str × Str)} (h : Matches p u b)
    (h' : Matches p u b') : b' = b :=
  (walk_of_matches h').1.symm.trans (walk_of_matches h).1

/-- One route agrees with its pattern's meaning. -/
def RouteFits (pattern path : Str) (params : List (Str × Str)) : Prop :=
  (pattern = path → params = (walk path path).1) ∧ (pattern ≠ path → WalkFits pattern path)

/-- A pattern that matches is found to match, with its bindings, just where the route agrees. -/
theorem route_matches_iff {pattern path : Str} (h : Matches pattern path b) :
    (∃ req', httpRouteMatches pattern path req = some (true, req') ∧ req'.params = b)
      ↔ RouteFits pattern path req.params := by
  obtain ⟨hb, hall, hend⟩ := walk_of_matches h
  by_cases heq : pattern = path
  · subst heq
    rw [httpRouteMatches_self, RouteFits, hb]
    simp
  · rw [httpRouteMatches_walk heq, hb]
    have hempty : ¬ ∃ p ∈ (walk pattern path).1, p.2 = [] := by
      rw [hb]
      push Not
      exact hall
    constructor
    · rintro ⟨req', hreq, -⟩
      split_ifs at hreq with hten
      have hv := (Prod.mk.inj (Option.some.inj hreq)).1
      refine ⟨fun h => absurd h heq, fun _ => ⟨by rwa [hb], fun h => absurd h hempty, ?_⟩⟩
      intro _ hstar
      rcases of_decide_eq_true hv with hnil | ⟨-, hne⟩
      · rw [hnil] at hstar
        cases hstar
      · exact hne
    · rintro ⟨-, hfits⟩
      obtain ⟨hten, -, hrem⟩ := hfits heq
      rw [if_pos (by rwa [hb] at hten)]
      have hv : verdict (walk pattern path).2 = true := by
        refine decide_eq_true ?_
        rcases hend with hnil | hstar
        · exact .inl hnil
        · exact .inr ⟨hstar, hrem (by rwa [hb]) hstar⟩
      exact ⟨_, by rw [hv], rfl⟩

/-- A pattern that does not match is found not to just where the route agrees. -/
theorem route_fails_iff (req : HttpRequest) {pattern path : Str}
    (h : ∀ b, ¬ Matches pattern path b) :
    httpRouteMatches pattern path req
        = some (false, { req with params := (walk pattern path).1 })
      ↔ WalkFits pattern path := by
  have hne : pattern ≠ path := by
    rintro rfl
    exact h _ (matches_self pattern)
  rw [httpRouteMatches_walk hne]
  constructor
  · intro hreq
    split_ifs at hreq with hten
    have hv := of_decide_eq_false (Prod.mk.inj (Option.some.inj hreq)).1
    push Not at hv
    refine ⟨hten, fun _ => ⟨hv.1, hv.2⟩, fun hall hstar _ => ?_⟩
    exact h _ (matches_of_walk pattern path hall (.inr hstar))
  · rintro ⟨hten, hseg, -⟩
    rw [if_pos hten]
    have hv : verdict (walk pattern path).2 = false := by
      refine decide_eq_false ?_
      by_cases hall : ∀ p ∈ (walk pattern path).1, p.2 ≠ []
      · rintro (hnil | ⟨hstar, -⟩)
        · exact h _ (matches_of_walk pattern path hall (.inl hnil))
        · exact h _ (matches_of_walk pattern path hall (.inr hstar))
      · push Not at hall
        obtain ⟨h1, h2⟩ := hseg hall
        rintro (hnil | ⟨hstar, hrest⟩)
        · exact h1 hnil
        · exact hrest (h2 hstar)
    rw [hv]

theorem httpRouteMatches_fields {pattern path : Str} {m : Bool}
    (h : httpRouteMatches pattern path req = some (m, req')) :
    req'.method = req.method ∧ req'.path = req.path := by
  by_cases heq : pattern = path
  · subst heq
    rw [httpRouteMatches_self] at h
    cases h
    exact ⟨rfl, rfl⟩
  · rw [httpRouteMatches_walk heq] at h
    split_ifs at h
    cases h
    exact ⟨rfl, rfl⟩

/-- What a route answers does not depend on what the request has. -/
theorem httpRouteMatches_same {pattern path : Str} {m m' : Bool} {q q' r r' : HttpRequest}
    (h : httpRouteMatches pattern path q = some (m, q'))
    (h' : httpRouteMatches pattern path r = some (m', r')) : m' = m := by
  by_cases heq : pattern = path
  · subst heq
    rw [httpRouteMatches_self] at h h'
    cases h
    cases h'
    rfl
  · rw [httpRouteMatches_walk heq] at h h'
    split_ifs at h h'
    cases h
    cases h'
    rfl

attribute [simp] findRoute

theorem findRoute_skip (h : r.method ≠ req.method) :
    findRoute (r :: rs) req = findRoute rs req := by
  rw [findRoute, if_neg h]

theorem findRoute_of_true (h : r.method = req.method)
    (hm : httpRouteMatches r.pathPattern req.path req = some (true, req')) :
    findRoute (r :: rs) req = some (some r, req') := by
  rw [findRoute, if_pos h, hm]

theorem findRoute_of_false (h : r.method = req.method)
    (hm : httpRouteMatches r.pathPattern req.path req = some (false, req')) :
    findRoute (r :: rs) req = findRoute rs req' := by
  rw [findRoute, if_pos h, hm]

theorem findRoute_of_none (h : r.method = req.method)
    (hm : httpRouteMatches r.pathPattern req.path req = none) :
    findRoute (r :: rs) req = none := by
  rw [findRoute, if_pos h, hm]

/-- The route that is chosen was found to match. -/
theorem findRoute_some : ∀ {rs : List (HttpRoute η)} {req req' : HttpRequest},
    findRoute rs req = some (some r, req') → r ∈ rs ∧ r.method = req.method
      ∧ ∃ q, httpRouteMatches r.pathPattern req.path q = some (true, req')
  | [], req, req', h => by
    rw [findRoute] at h
    cases h
  | s :: rs, req, req', h => by
    have htail : ∀ {q : HttpRequest}, q.method = req.method → q.path = req.path →
        findRoute rs q = some (some r, req') → r ∈ s :: rs ∧ r.method = req.method
          ∧ ∃ q, httpRouteMatches r.pathPattern req.path q = some (true, req') := by
      intro q hmethod hpath hq
      obtain ⟨h1, h2, h3⟩ := findRoute_some hq
      rw [hmethod] at h2
      rw [hpath] at h3
      exact ⟨List.mem_cons_of_mem s h1, h2, h3⟩
    by_cases hs : s.method = req.method
    · rcases hm : httpRouteMatches s.pathPattern req.path req with _ | ⟨m, q⟩
      · rw [findRoute_of_none hs hm] at h
        cases h
      · rcases m with _ | _
        · rw [findRoute_of_false hs hm] at h
          obtain ⟨hmethod, hpath⟩ := httpRouteMatches_fields hm
          exact htail hmethod hpath h
        · rw [findRoute_of_true hs hm] at h
          cases h
          exact ⟨List.mem_cons_self, hs, req, hm⟩
    · rw [findRoute_skip hs] at h
      exact htail rfl rfl h

/-- A property of the places in a list, at its head and behind it. -/
theorem forall_places {α : Type} {P : List α → α → Prop} {x : α} {xs : List α} :
    (∀ pre y post, x :: xs = pre ++ y :: post → P pre y)
      ↔ P [] x ∧ ∀ pre y post, xs = pre ++ y :: post → P (x :: pre) y := by
  constructor
  · intro h
    exact ⟨h [] x xs rfl, fun pre y post hxs => h (x :: pre) y post (by rw [hxs]; rfl)⟩
  · rintro ⟨h0, h⟩ (_ | ⟨z, pre⟩) y post hxs
    · obtain ⟨rfl, -⟩ := List.cons.inj hxs
      exact h0
    · obtain ⟨rfl, htail⟩ := List.cons.inj hxs
      exact h pre y post htail

theorem isFirst_skip (h : r.method ≠ req.method ∨ ∀ b, ¬ Matches r.pathPattern req.path b)
    {x : HttpRoute η} : IsFirst (r :: rs) req x b ↔ IsFirst rs req x b := by
  constructor
  · rintro ⟨_ | ⟨y, pre⟩, post, hrs, hx, hm, hpre⟩
    · obtain ⟨rfl, -⟩ := List.cons.inj hrs
      exact (h.elim (fun hne => hne hx) fun hno => hno b hm).elim
    · obtain ⟨rfl, htail⟩ := List.cons.inj hrs
      exact ⟨pre, post, htail, hx, hm, fun q hq => hpre q (List.mem_cons_of_mem r hq)⟩
  · rintro ⟨pre, post, rfl, hx, hm, hpre⟩
    refine ⟨r :: pre, post, rfl, hx, hm, ?_⟩
    rintro q (_ | ⟨_, hq⟩) hq' b'
    · exact (h.resolve_left (not_not.2 hq')) b'
    · exact hpre q hq hq' b'

theorem isFirst_head (h : r.method = req.method) (hm : Matches r.pathPattern req.path b)
    {x : HttpRoute η} {b' : List (Str × Str)} :
    IsFirst (r :: rs) req x b' ↔ x = r ∧ b' = b := by
  constructor
  · rintro ⟨_ | ⟨y, pre⟩, post, hrs, hx, hm', hpre⟩
    · obtain ⟨rfl, -⟩ := List.cons.inj hrs
      exact ⟨rfl, hm.unique hm'⟩
    · obtain ⟨rfl, -⟩ := List.cons.inj hrs
      exact absurd hm (hpre _ List.mem_cons_self h b)
  · rintro ⟨rfl, rfl⟩
    exact ⟨[], rs, rfl, h, hm, by simp⟩

theorem routed_skip (h : r.method ≠ req.method) : Routed (r :: rs) req ↔ Routed rs req := by
  simp only [Routed, isFirst_skip (.inl h), findRoute_skip h]

theorem routesFit_skip (h : r.method ≠ req.method) :
    RoutesFit (r :: rs) req ↔ RoutesFit rs req := by
  have hleft : ∀ pre : List (HttpRoute η), leftover (r :: pre) req = leftover pre req := by
    intro pre
    rw [leftover, List.foldl_cons, if_neg h]
    rfl
  simp only [RoutesFit, forall_places, h, false_implies, true_and, List.forall_mem_cons, hleft]

/-- Where the head matches, it is to be chosen. -/
theorem routed_head (h : r.method = req.method) (hm : Matches r.pathPattern req.path b) :
    Routed (r :: rs) req ↔ RouteFits r.pathPattern req.path req.params := by
  rw [← route_matches_iff hm]
  constructor
  · rintro ⟨hfirst, -⟩
    obtain ⟨req', hfind, hb, -⟩ := hfirst r b ((isFirst_head h hm).2 ⟨rfl, rfl⟩)
    refine ⟨req', ?_, hb⟩
    rcases hr : httpRouteMatches r.pathPattern req.path req with _ | ⟨m, q⟩
    · rw [findRoute_of_none h hr] at hfind
      cases hfind
    · rcases m with _ | _
      · -- the same route further on is not found to match either
        rw [findRoute_of_false h hr] at hfind
        obtain ⟨-, -, q', hq'⟩ := findRoute_some hfind
        rw [(httpRouteMatches_fields hr).2] at hq'
        cases httpRouteMatches_same hr hq'
      · rw [findRoute_of_true h hr] at hfind
        cases hfind
        rfl
  · rintro ⟨req', hr, hb⟩
    refine ⟨?_, fun hno => absurd ((isFirst_head h hm).2 ⟨rfl, rfl⟩) (hno r b)⟩
    intro x b' hx
    obtain ⟨rfl, rfl⟩ := (isFirst_head h hm).1 hx
    exact ⟨req', findRoute_of_true h hr, hb, fun key => by rw [httpGetPathParam, hb]⟩

theorem routesFit_head (h : r.method = req.method) (hm : Matches r.pathPattern req.path b) :
    RoutesFit (r :: rs) req ↔ RouteFits r.pathPattern req.path req.params := by
  rw [RoutesFit, forall_places, RouteFits]
  constructor
  · rintro ⟨h0, -⟩
    exact h0 h (by simp)
  · intro hfits
    refine ⟨fun _ _ => hfits, fun pre y post _ _ hpre => ?_⟩
    exact absurd hm (hpre r List.mem_cons_self h b)

/-- Where it does not, the rest is searched with what it left. -/
theorem routed_tail (h : r.method = req.method) (hno : ∀ b, ¬ Matches r.pathPattern req.path b) :
    Routed (r :: rs) req ↔ WalkFits r.pathPattern req.path
      ∧ Routed rs { req with params := (walk r.pathPattern req.path).1 } := by
  rw [← route_fails_iff req hno]
  have hfirst : ∀ x b', IsFirst (r :: rs) req x b'
      ↔ IsFirst rs { req with params := (walk r.pathPattern req.path).1 } x b' :=
    fun x b' => isFirst_skip (.inr hno)
  constructor
  · rintro ⟨h1, h2⟩
    -- whether or not a route is first, the answer is not this one
    have hfind : ∃ x q, findRoute (r :: rs) req = some (x, q) ∧ x ≠ some r := by
      by_cases hany : ∃ x b', IsFirst (r :: rs) req x b'
      · obtain ⟨x, b', hx⟩ := hany
        obtain ⟨q, hq, -⟩ := h1 x b' hx
        refine ⟨_, q, hq, ?_⟩
        rintro heq
        obtain rfl := Option.some.inj heq
        obtain ⟨-, -, -, -, hm, -⟩ := hx
        exact hno b' hm
      · push Not at hany
        obtain ⟨q, hq⟩ := h2 hany
        exact ⟨none, q, hq, by simp⟩
    obtain ⟨x, q, hq, hx⟩ := hfind
    rcases hr : httpRouteMatches r.pathPattern req.path req with _ | ⟨m, q'⟩
    · rw [findRoute_of_none h hr] at hq
      cases hq
    · rcases m with _ | _
      · have hne : r.pathPattern ≠ req.path := by
          intro heq
          refine hno (walk req.path req.path).1 ?_
          rw [heq]
          exact matches_self req.path
        have hq' : q' = { req with params := (walk r.pathPattern req.path).1 } := by
          rw [httpRouteMatches_walk hne] at hr
          split_ifs at hr
          exact (Prod.mk.inj (Option.some.inj hr)).2.symm
        rw [hq'] at hr
        refine ⟨by rw [hq'], ?_⟩
        simp only [findRoute_of_false h hr, hfirst] at h1 h2
        exact ⟨h1, h2⟩
      · rw [findRoute_of_true h hr] at hq
        cases hq
        exact absurd rfl hx
  · rintro ⟨hr, h1, h2⟩
    simp only [Routed, findRoute_of_false h hr, hfirst]
    exact ⟨h1, h2⟩

theorem routesFit_tail (h : r.method = req.method) (hno : ∀ b, ¬ Matches r.pathPattern req.path b) :
    RoutesFit (r :: rs) req ↔ WalkFits r.pathPattern req.path
      ∧ RoutesFit rs { req with params := (walk r.pathPattern req.path).1 } := by
  have hne : r.pathPattern ≠ req.path := by
    intro heq
    refine hno (walk req.path req.path).1 ?_
    rw [heq]
    exact matches_self req.path
  have hleft : ∀ pre : List (HttpRoute η), leftover (r :: pre) req
      = leftover pre { req with params := (walk r.pathPattern req.path).1 } := by
    intro pre
    rw [leftover, List.foldl_cons, if_pos h]
    rfl
  simp only [RoutesFit, forall_places, List.forall_mem_cons, hleft]
  constructor
  · rintro ⟨h0, htail⟩
    exact ⟨(h0 h (by simp)).2 hne, fun pre y post hrs hy hpre =>
      htail pre y post hrs hy ⟨fun _ => hno, hpre⟩⟩
  · rintro ⟨h0, htail⟩
    exact ⟨fun _ _ => ⟨fun heq => absurd heq hne, fun _ => h0⟩, fun pre y post hrs hy hpre =>
      htail pre y post hrs hy hpre.2⟩

end Routing

/-- The first route that matches is chosen and its bindings are what the handler sees just where
each route that is tried agrees with its pattern's meaning. -/
theorem routed_iff {η : Type} (routes : List (HttpRoute η)) (req : HttpRequest) :
    Routed routes req ↔ RoutesFit routes req := by
  induction routes generalizing req with
  | nil =>
    have hnone : ∀ r b, ¬ IsFirst ([] : List (HttpRoute η)) req r b := by
      rintro r b ⟨pre, post, hrs, -⟩
      simp at hrs
    refine iff_of_true ⟨fun r b h => absurd h (hnone r b), fun _ => ⟨req, rfl⟩⟩ ?_
    intro pre r post hrs
    simp at hrs
  | cons r rs ih =>
    by_cases h : r.method = req.method
    · by_cases hm : ∃ b, Matches r.pathPattern req.path b
      · obtain ⟨b, hm⟩ := hm
        rw [routed_head h hm, routesFit_head h hm]
      · push Not at hm
        rw [routed_tail h hm, routesFit_tail h hm, ih]
    · rw [routed_skip h, routesFit_skip h, ih]

/-- A request of `/a`. -/
def requestOfA : HttpRequest where
  method := [0x47]
  path := [slash, 0x61]
  queryString := none
  httpVersion := []
  headers := []
  body := none
  params := []

/-- The routes `/:i/x` and `/a`. -/
def twoRoutes : List (HttpRoute ℕ) :=
  [⟨[0x47], [slash, colon, 0x69, slash, 0x78], 0⟩, ⟨[0x47], [slash, 0x61], 1⟩]

/-- The handler of `/a` sees the parameter `i` of the route before it. -/
theorem parameter_left_over : ¬ Routed twoRoutes requestOfA := by
  have hwalk : walk [slash, colon, 0x69, slash, 0x78] [slash, 0x61]
      = ([([0x69], [0x61])], [slash, 0x78], []) := by
    rw [walk_lit (by decide) (by decide), if_pos rfl, walk_param]
    exact congrArg (fun r : List (Str × Str) × Str × Str => ([([0x69], [0x61])] ++ r.1, r.2))
      (walk_cons_nil slash [0x78])
  have hno : ∀ b, ¬ Matches [slash, colon, 0x69, slash, 0x78] [slash, 0x61] b := by
    intro b hm
    obtain ⟨-, -, hend⟩ := walk_of_matches hm
    rw [hwalk] at hend
    revert hend
    decide
  have hself := walk_of_matches
    (.lit (p := [0x61]) slash (by decide) (by decide) (.lit 0x61 (by decide) (by decide) .nil))
  rw [twoRoutes, routed_tail rfl hno]
  rintro ⟨-, hrouted⟩
  have hfits := (routed_head rfl (matches_self _)).1 hrouted
  have hleft : (walk [slash, colon, 0x69, slash, 0x78] [slash, 0x61]).1
      = (walk [slash, 0x61] [slash, 0x61]).1 := hfits.1 rfl
  rw [hwalk] at hleft
  exact absurd (hleft.trans hself.1) (by decide)

end Http

end Qjs
