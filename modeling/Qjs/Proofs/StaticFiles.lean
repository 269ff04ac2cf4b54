import Qjs.StaticFiles
import Qjs.Proofs.HttpResponse

namespace Qjs

namespace Http

namespace Static

open Response

/-! ### Names in a path -/

theorem splitOn_slash (front back : Str) :
    (front ++ slash :: back).splitOn slash = front.splitOn slash ++ back.splitOn slash :=
  List.splitOn_append_cons_self front back

theorem segments_slash (front back : Str) :
    segments (front ++ slash :: back) = segments front ++ segments back := by
  rw [segments, splitOn_slash, List.filter_append]
  rfl

/-- The first name of a path that does not start with a slash. -/
theorem segments_of_name {name : Str} (hne : name ≠ []) (hslash : slash ∉ name) :
    segments name = [name] := by
  rw [segments, List.splitOn_eq_singleton hslash, List.filter_cons_of_pos (by simpa using hne),
    List.filter_nil]

theorem segments_name_append {name back : Str} (hne : name ≠ []) (hslash : slash ∉ name) :
    ∃ more, segments (name ++ back) = (name ++ back.takeWhile (· ≠ slash)) :: more := by
  have hbefore : slash ∉ name ++ back.takeWhile (· ≠ slash) := by
    rw [List.mem_append, not_or]
    refine ⟨hslash, fun hmem => ?_⟩
    have := List.mem_takeWhile_imp hmem
    simp at this
  have hne' : name ++ back.takeWhile (· ≠ slash) ≠ [] := by simp [hne]
  rcases hrest : back.dropWhile (· ≠ slash) with _ | ⟨c, rest⟩
  · refine ⟨[], ?_⟩
    have hall : back.takeWhile (· ≠ slash) = back := by
      have := List.takeWhile_append_dropWhile (p := (· ≠ slash)) (l := back)
      rwa [hrest, List.append_nil] at this
    rw [hall] at hbefore hne' ⊢
    exact segments_of_name hne' hbefore
  · have hc : c = slash := by
      have hne : back.dropWhile (· ≠ slash) ≠ [] := by
        rw [hrest]
        exact List.cons_ne_nil _ _
      have hhead := List.head_dropWhile_not (· ≠ slash) hne
      simp only [hrest, List.head_cons] at hhead
      simpa using hhead
    refine ⟨segments rest, ?_⟩
    have hback : back = back.takeWhile (· ≠ slash) ++ slash :: rest := by
      have := List.takeWhile_append_dropWhile (p := (· ≠ slash)) (l := back)
      rw [hrest, hc] at this
      exact this.symm
    nth_rw 1 [hback]
    rw [← List.append_assoc, segments_slash, segments_of_name hne' hbefore]
    rfl

/-- A canonical path is the root or has a last name. -/
theorem Canonical.last {path : Str} (h : Canonical path) (hroot : path ≠ [slash]) :
    ∃ front name, path = front ++ slash :: name ∧ name ≠ [] ∧ slash ∉ name := by
  obtain ⟨names, hnames, rfl⟩ := h
  rcases List.eq_nil_or_concat names with rfl | ⟨init, last, rfl⟩
  · exact absurd rfl hroot
  · obtain ⟨hne, hslash, -⟩ := hnames last (by simp)
    refine ⟨init.flatMap (slash :: ·), last, ?_, hne, hslash⟩
    rw [if_neg (by simp), List.concat_eq_append, List.flatMap_append, List.flatMap_singleton]

/-- What begins with the path of the root is below it unless it is only named alike. -/
theorem below_iff {root resolved : Str} (hroot : Canonical root) (hstarts : root <+: resolved) :
    Below root resolved ↔ ¬ NamedAlike root resolved := by
  obtain ⟨t, rfl⟩ := hstarts
  constructor
  · rintro hbelow ⟨hne, c, t', ht, hc⟩
    obtain rfl := List.append_cancel_left ht
    obtain ⟨front, name, rfl, hname, hslash⟩ := hroot.last hne
    rw [Below, List.append_assoc, List.cons_append, segments_slash, segments_slash,
      List.prefix_append_right_inj, segments_of_name hname hslash] at hbelow
    obtain ⟨more, hmore⟩ := @segments_name_append name (c :: t') hname hslash
    rw [hmore] at hbelow
    have hhead := (List.cons_prefix_cons.1 hbelow).1
    rw [List.takeWhile_cons_of_pos (by simpa using hc)] at hhead
    have := congrArg List.length hhead
    simp at this
  · intro hnot
    rcases t with _ | ⟨c, t⟩
    · rw [List.append_nil]
      exact List.prefix_rfl
    · by_cases hc : c = slash
      · rw [Below, hc, segments_slash]
        exact List.prefix_append _ _
      · by_cases hr : root = [slash]
        · rw [Below, hr]
          exact List.nil_prefix
        · exact absurd ⟨hr, c, t, rfl, hc⟩ hnot

/-- A name stands between the ends of a path and its slashes. -/
theorem of_mem_splitOn {name path : Str} (h : name ∈ path.splitOn slash) :
    ∃ front back, path = front ++ (name ++ back) ∧
      (front = [] ∨ ∃ f, front = f ++ [slash]) ∧ (back = [] ∨ ∃ b, back = slash :: b) := by
  obtain ⟨before, after, hpieces⟩ := List.append_of_mem h
  have hpath : [slash].intercalate (before ++ name :: after) = path := by
    rw [← hpieces, List.intercalate_splitOn]
  clear h hpieces
  induction before generalizing path with
  | nil =>
    rcases after with _ | ⟨next, after⟩
    · exact ⟨[], [], by rw [← hpath]; simp, .inl rfl, .inl rfl⟩
    · refine ⟨[], slash :: [slash].intercalate (next :: after), ?_, .inl rfl, .inr ⟨_, rfl⟩⟩
      rw [← hpath, List.nil_append, List.nil_append, List.intercalate_cons_cons, List.append_assoc]
      rfl
  | cons first before ih =>
    obtain ⟨front, back, hrest, hfront, hback⟩ := ih rfl
    refine ⟨first ++ slash :: front, back, ?_, .inr ?_, hback⟩
    · rw [← hpath, List.cons_append, List.intercalate_cons_of_ne_nil (by simp), hrest]
      simp
    · rcases hfront with rfl | ⟨f, rfl⟩
      · exact ⟨first, rfl⟩
      · exact ⟨first ++ slash :: f, by simp⟩

/-- The two substrings and the whole that the middleware looks for are all that a parent directory
can be. -/
theorem parentDir_checks {tail : Str} (h : parentDir ∈ tail.splitOn slash) :
    slash :: parentDir <:+: tail ∨ parentDir ++ [slash] <:+: tail ∨ tail = parentDir := by
  obtain ⟨front, back, rfl, rfl | ⟨f, rfl⟩, hback⟩ := of_mem_splitOn h
  · rcases hback with rfl | ⟨b, rfl⟩
    · exact .inr (.inr (by simp))
    · exact .inr (.inl ⟨[], b, by simp⟩)
  · exact .inl ⟨f, back, by simp⟩

/-! ### The handlers -/

theorem opened_iff (fs : FileSystem) (path : Option Str) (res : HttpServerResponse)
    (baseDir : Option Str) (opened : Str) :
    (httpServeStatic fs path res baseDir).1 = some opened ↔
      refused (requestName path) = false ∧ ∃ root, fs.realpath (baseDir.getD [dot]) = some root ∧
        fs.realpath (staticPath (baseDir.getD [dot]) (requestName path)) = some opened ∧
        root <+: opened := by
  rw [httpServeStatic]
  rcases hrefused : refused (requestName path) with _ | _
  · rw [if_neg Bool.false_ne_true]
    rcases fs.realpath (staticPath (baseDir.getD [dot]) (requestName path)) with _ | resolved <;>
      rcases fs.realpath (baseDir.getD [dot]) with _ | root
    · simp
    · simp
    · simp
    · dsimp only
      by_cases hstarts : root.isPrefixOf resolved = true
      · rw [if_pos hstarts]
        have hp := List.isPrefixOf_iff_prefix.1 hstarts
        constructor
        · intro hopened
          obtain rfl := Option.some.inj hopened
          exact ⟨rfl, root, rfl, rfl, hp⟩
        · rintro ⟨-, -, -, hresolved, -⟩
          exact hresolved
      · rw [if_neg hstarts]
        refine iff_of_false nofun ?_
        rintro ⟨-, root', hroot, hresolved, hp⟩
        obtain rfl := Option.some.inj hroot
        obtain rfl := Option.some.inj hresolved
        exact hstarts (List.isPrefixOf_iff_prefix.2 hp)
  · exact iff_of_false nofun fun h => Bool.false_ne_true h.1.symm

theorem contained_iff (fs : FileSystem) (path : Option Str) (res : HttpServerResponse)
    (baseDir : Option Str) :
    Contained fs path res baseDir ↔ refused (requestName path) = true ∨ ∀ resolved root,
      fs.realpath (staticPath (baseDir.getD [dot]) (requestName path)) = some resolved →
        fs.realpath (baseDir.getD [dot]) = some root → ¬ NamedAlike root resolved := by
  constructor
  · intro h
    rcases hrefused : refused (requestName path) with _ | _
    · refine .inr fun resolved root hresolved hroot halike => ?_
      obtain ⟨-, c, t, happend, -⟩ := id halike
      have hstarts : root <+: resolved := ⟨c :: t, happend.symm⟩
      obtain ⟨root', hroot', hbelow⟩ := h resolved
        ((opened_iff _ _ _ _ _).2 ⟨hrefused, root, hroot, hresolved, hstarts⟩)
      obtain rfl := Option.some.inj (hroot.symm.trans hroot')
      exact (below_iff (fs.canonical _ _ hroot) hstarts).1 hbelow halike
    · exact .inl rfl
  · intro h opened hopened
    obtain ⟨hrefused, root, hroot, hresolved, hstarts⟩ := (opened_iff _ _ _ _ _).1 hopened
    refine ⟨root, hroot, (below_iff (fs.canonical _ _ hroot) hstarts).2 ?_⟩
    rcases h with h | h
    · rw [hrefused] at h
      cases h
    · exact h opened root hresolved hroot

theorem middlewareStatic_noParent {fs : FileSystem} {path : Option Str} {res : HttpServerResponse}
    {o : StaticOpts} {built : Str} (h : (middlewareStatic fs path res o).1 = some built) :
    NoParent o.root built := by
  rcases path with _ | path
  · cases h
  · rw [middlewareStatic] at h
    dsimp only at h
    generalize (if path.drop o.urlPrefix.length = [] then [slash]
      else path.drop o.urlPrefix.length) = tail at h
    split_ifs at h with hstarts hparent hslash hlong hlong
    · obtain rfl := Option.some.inj h
      obtain ⟨rest, rfl⟩ : ∃ rest, tail = slash :: rest := by
        rcases tail with _ | ⟨c, rest⟩
        · cases hslash
        · exact ⟨rest, by rw [Option.some.inj hslash]⟩
      refine ⟨rest, by simp, fun hmem => hparent (.inl ?_)⟩
      obtain ⟨front, back, rfl, rfl | ⟨f, rfl⟩, -⟩ := of_mem_splitOn hmem
      · exact ⟨[], back, by simp⟩
      · exact ⟨slash :: f, back, by simp⟩
    · obtain rfl := Option.some.inj h
      exact ⟨tail, by simp, fun hmem => hparent (parentDir_checks hmem)⟩

theorem vcrStaticDispatch_noParent {fs : FileSystem} {path : Option Str} {res : HttpServerResponse}
    {m : StaticMount} {built : Str} (h : (vcrStaticDispatch fs path res m).1 = some built) :
    NoParent m.fsDir built := by
  rcases path with _ | path
  · cases h
  · rw [vcrStaticDispatch] at h
    dsimp only at h
    generalize (if (if (path.drop m.mountPath.length).head? = some slash then
      (path.drop m.mountPath.length).tail else path.drop m.mountPath.length) = [] then indexHtml
      else if (path.drop m.mountPath.length).head? = some slash then
        (path.drop m.mountPath.length).tail else path.drop m.mountPath.length) = rel at h
    split_ifs at h with hstarts hrefused hlong
    obtain rfl := Option.some.inj h
    refine ⟨rel, rfl, fun hmem => hrefused ?_⟩
    obtain ⟨front, back, rfl, -, -⟩ := of_mem_splitOn hmem
    rw [refused, List.any_eq_true]
    exact ⟨parentDir, by simp [traversals], by simp⟩

theorem cString_take {content : List UInt8} {n : ℕ} (hn : n ≤ content.length) :
    cString (content.take n) = content ↔ n = content.length ∧ 0 ∉ content := by
  constructor
  · intro h
    have hlen : (cString (content.take n)).length ≤ (content.take n).length :=
      (List.takeWhile_prefix _).length_le
    rw [h, List.length_take] at hlen
    have hall : n = content.length := by omega
    rw [hall, List.take_length] at h
    refine ⟨hall, fun hmem => ?_⟩
    rw [← h] at hmem
    have := List.mem_takeWhile_imp hmem
    simp at this
  · rintro ⟨rfl, hzero⟩
    rw [List.take_length, cString, List.takeWhile_eq_self_iff]
    intro c hc
    simp only [ne_eq, decide_eq_true_eq]
    rintro rfl
    exact hzero hc

theorem respond_status (res : HttpServerResponse) (code : ℤ) (text : Str) :
    (respond res code text).statusCode = code := (setHeader_status _ _ _).1

theorem complete_iff (fs : FileSystem) (res : HttpServerResponse) (filepath : Str) :
    Complete fs res filepath ↔ ∀ f, fs.fopen filepath = some f →
      (f.bytesRead = 0 ∧ 0 < f.content.length) ∨
        (f.bytesRead = f.content.length ∧ 0 ∉ f.content) := by
  refine forall_congr' fun f => forall_congr' fun hopen => ?_
  rw [httpServeFile, hopen]
  dsimp only
  split_ifs with hfailed
  · rw [respond_status]
    exact iff_of_true (fun h => absurd h (by decide)) (.inl hfailed)
  · have hstatus : (httpResponseSetBody (setHeader (setHeader (httpResponseSetStatus res 200)
        contentType (httpMimeType filepath)) allowOrigin [star])
        (some (cString (f.content.take f.bytesRead)))).statusCode = 200 := by
      rw [httpResponseSetBody, storeBody, (setHeader_status _ _ _).1]
      dsimp only
      rw [(setHeader_status _ _ _).1, (setHeader_status _ _ _).1]
      rfl
    have hbody : (httpResponseSetBody (setHeader (setHeader (httpResponseSetStatus res 200)
        contentType (httpMimeType filepath)) allowOrigin [star])
        (some (cString (f.content.take f.bytesRead)))).body.getD [] =
          cString (f.content.take f.bytesRead) := by
      rw [httpResponseSetBody, (storeBody_spec _ _).1]
      rfl
    rw [hstatus, hbody, cString_take f.bytesRead_le, or_iff_right hfailed]
    exact ⟨fun h => h rfl, fun h _ => h⟩

/-- What `http_serve_static` opens is below its root if and only if the path is refused or does not
resolve to one that is only named like the root; the two other handlers never build a path with a
parent directory; and a response with the status 200 has the bytes of the file if and only if all of
them were read and none is zero, or the read failed. -/
theorem static_files (fs : FileSystem) (path baseDir : Option Str) (res : HttpServerResponse)
    (o : StaticOpts) (m : StaticMount) (filepath : Str) :
    (Contained fs path res baseDir ↔ refused (requestName path) = true ∨ ∀ resolved root,
      fs.realpath (staticPath (baseDir.getD [dot]) (requestName path)) = some resolved →
        fs.realpath (baseDir.getD [dot]) = some root → ¬ NamedAlike root resolved) ∧
    (∀ built, (middlewareStatic fs path res o).1 = some built → NoParent o.root built) ∧
    (∀ built, (vcrStaticDispatch fs path res m).1 = some built → NoParent m.fsDir built) ∧
    (Complete fs res filepath ↔ ∀ f, fs.fopen filepath = some f →
      (f.bytesRead = 0 ∧ 0 < f.content.length) ∨
        (f.bytesRead = f.content.length ∧ 0 ∉ f.content)) :=
  ⟨contained_iff fs path res baseDir, fun _ => middlewareStatic_noParent,
    fun _ => vcrStaticDispatch_noParent, complete_iff fs res filepath⟩

/-- The directory `/w` with a link `l` to the file `/w2`. -/
def linkedFiles : FileSystem where
  realpath path :=
    if path = ascii "/w" then some (ascii "/w") else if path = ascii "/w/l" then some (ascii "/w2")
    else none
  fopen path := if path = ascii "/w2" then some ⟨[0x61, 0, 0x62], 3, by decide⟩ else none
  canonical path resolved h := by
    split_ifs at h
    · exact ⟨[ascii "w"], by decide, (Option.some.inj h).symm⟩
    · exact ⟨[ascii "w2"], by decide, (Option.some.inj h).symm⟩

/-- The file beside the root is opened, and its body ends at its zero byte. -/
theorem sibling_served :
    (httpServeStatic linkedFiles (some (ascii "/l")) httpResponseCreate (some (ascii "/w"))).1 =
        some (ascii "/w2") ∧
      ¬ Below (ascii "/w") (ascii "/w2") ∧
      (httpServeStatic linkedFiles (some (ascii "/l")) httpResponseCreate
        (some (ascii "/w"))).2.statusCode = 200 ∧
      (httpServeStatic linkedFiles (some (ascii "/l")) httpResponseCreate
        (some (ascii "/w"))).2.body = some [0x61] := by
  refine ⟨by decide, fun hbelow => ?_, by decide, by decide⟩
  exact absurd (show segments (ascii "/w") <+: segments (ascii "/w2") from hbelow) (by decide)

end Static

end Http

end Qjs
