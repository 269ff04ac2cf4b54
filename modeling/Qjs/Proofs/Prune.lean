import Qjs.Prune
import Qjs.Proofs.DeadCode

/-!
# Pruning keeps what is reached

The names that the pass reaches are the closure of those of the seeds (`mem_reachable_iff`), and an
imported function is kept exactly if it is live (`mem_prune_iff`). So the pass is sound exactly if
what constants, export lists and builders refer to besides is live anyway.
-/

namespace Qjs

namespace Aether

namespace Prune

open ASTNode

variable {p : MergedProgram} {decls : List Decl} {d f : Decl} {name key value ns : Str}

/-! ### Names -/

theorem length_undot (name : Str) : (undot name).length = name.length := List.length_map ..

theorem undot_of_not_mem (h : dot ∉ name) : undot name = name := by
  unfold undot
  conv_rhs => rw [← List.map_id name]
  refine List.map_congr_left fun c hc => ?_
  have hne : c ≠ dot := by
    rintro rfl
    exact h hc
  rw [if_neg hne, id]

theorem nameKey_of_not_mem (h : dot ∉ name) : nameKey name = name := if_neg h

/-- A name that fits into the buffer is only rid of its dots. -/
theorem nameKey_of_length_le (h : name.length ≤ 255) : nameKey name = undot name := by
  unfold nameKey
  split_ifs with hd
  · rw [List.take_of_length_le h]
  · exact (undot_of_not_mem hd).symm

theorem endsWithName_iff : endsWithName value name = true ↔
    ∃ ns, ns ≠ [] ∧ value = ns ++ underscore :: name := by
  unfold endsWithName
  simp only [decide_eq_true_eq]
  constructor
  · rintro ⟨hlt, hdrop⟩
    refine ⟨value.take (value.length - name.length - 1), ?_, ?_⟩
    · intro hnil
      have := congrArg List.length hnil
      simp only [List.length_take, List.length_nil] at this
      omega
    · rw [← hdrop, List.take_append_drop]
  · rintro ⟨ns, hns, rfl⟩
    have hpos := List.length_pos_iff.2 hns
    simp only [List.length_append, List.length_cons]
    refine ⟨by omega, ?_⟩
    rw [show ns.length + (name.length + 1) - name.length - 1 = ns.length by omega,
      List.drop_left]

/-- What ends with a name that ends with another ends with that. -/
theorem endsWithName_trans (h : endsWithName value key = true) (hk : endsWithName key name = true) :
    endsWithName value name = true := by
  rw [endsWithName_iff] at *
  obtain ⟨ns, hns, rfl⟩ := h
  obtain ⟨ns', -, rfl⟩ := hk
  exact ⟨ns ++ underscore :: ns', by simp, by simp⟩

theorem denotes_iff : Denotes name value ↔
    value = undot name ∨ endsWithName value (undot name) = true := by
  rw [Denotes, endsWithName_iff]

theorem Denotes.length_le (h : Denotes name value) : name.length ≤ value.length := by
  rcases h with rfl | ⟨ns, -, rfl⟩
  · rw [length_undot]
  · simp only [List.length_append, List.length_cons, length_undot]
    omega

/-! ### Trees -/

theorem mem_namesAll {cut : Str → Str} {cs : List ASTNode} :
    name ∈ namesAll cut cs ↔ ∃ c ∈ cs, name ∈ names cut c := by
  induction cs with
  | nil => simp [namesAll]
  | cons c cs ih => simp [namesAll, ih]

theorem mem_ownNames_cut {t : ASTNode} (hn : name ∈ ownNames id t) (hl : name.length ≤ 255) :
    name ∈ ownNames (List.take 255) t := by
  unfold ownNames at hn ⊢
  split at hn
  · exact hn
  · exact hn
  · obtain rfl := List.mem_singleton.1 hn
    exact List.mem_singleton.2 (List.take_of_length_le hl).symm
  · simp at hn

/-- Names that fit into the buffer are collected as they are. -/
theorem mem_names_cut (t : ASTNode) : name ∈ names id t → name.length ≤ 255 →
    name ∈ names (List.take 255) t := by
  induction t using ASTNode.induct with
  | hnull => simp [names]
  | hnode k v ty cs ih =>
    intro hn hl
    rw [names, List.mem_append, mem_namesAll] at hn ⊢
    rcases hn with hn | ⟨c, hc, hn⟩
    · exact Or.inl (mem_ownNames_cut hn hl)
    · exact Or.inr ⟨c, hc, ih c hc hn hl⟩

theorem mentions_of_denotes (hn : name ∈ names id d.node) (hv : value.length ≤ 255)
    (hd : Denotes name value) : d.Mentions value := by
  have hl : name.length ≤ 255 := hd.length_le.trans hv
  refine ⟨nameKey name, List.mem_map_of_mem (mem_names_cut d.node hn hl), ?_⟩
  rw [nameKey_of_length_le hl]
  exact denotes_iff.1 hd

/-! ### What is reached -/

theorem mem_reachable_iff : key ∈ reachable decls ↔
    Reach.Reachable (fun a b => b ∈ nextKeys decls a)
      (· ∈ (decls.filter Decl.isSeed).flatMap fun d => collectedKeys d.node) key := by
  refine Worklist.mem_seen_run _ (Worklist.inv_foldl_note _ _) ?_
  exact Worklist.work_subset_foldl_note _ (by simp)

theorem mem_nextKeys : key ∈ nextKeys decls name ↔
    (∃ fn, pruneFindFunction decls name = some fn ∧ key ∈ collectedKeys fn.node)
      ∨ ∃ d ∈ decls, suffixKey name d = some key := by
  rw [nextKeys, List.mem_append, List.mem_filterMap]
  rcases pruneFindFunction decls name with _ | fn <;> simp

/-- A function that is found under a name. -/
theorem pruneFindFunction_some (h : pruneFindFunction decls name = some f) :
    f ∈ decls ∧ f.isFunction = true ∧ f.value = some name := by
  have hf := List.find?_some h
  simp only [decide_eq_true_eq] at hf
  exact ⟨List.mem_of_find?_eq_some h, hf⟩

/-- Under the name of an imported function nothing else is found. -/
theorem pruneFindFunction_imported (p : MergedProgram) (hf : f ∈ p.decls) (hi : f.isImported)
    (hfn : f.isFunction) (hv : f.value = some value) :
    pruneFindFunction p.decls value = some f := by
  rcases hg : pruneFindFunction p.decls value with _ | g
  · have hnone := List.find?_eq_none.1 hg f hf
    simp [hfn, hv] at hnone
  obtain ⟨hgm, hgf, hgv⟩ := pruneFindFunction_some hg
  by_contra hne
  have hne : g ≠ f := fun he => hne (congrArg some he)
  have hsymm : Std.Symm fun d e : Decl =>
      d.isImported = true ∨ e.isImported = true → d.value ≠ e.value :=
    { symm := fun _ _ h himp => (h himp.symm).symm }
  have hdiff := p.unique.forall (List.mem_filter.2 ⟨hgm, hgf⟩) (List.mem_filter.2 ⟨hf, hfn⟩) hne
  exact hdiff (Or.inr hi) (hgv.trans hv.symm)

theorem suffixKey_eq_some : suffixKey name d = some key ↔ d.isImported = true ∧
    d.isFunction = true ∧ ∃ value, d.value = some value ∧ endsWithName value name = true ∧
      key = nameKey value := by
  unfold suffixKey
  rcases hv : d.value with _ | value
  · simp
  · by_cases hd : d.isImported = true ∧ d.isFunction = true
    · by_cases he : endsWithName value name = true
      · simp only [if_pos hd, if_pos he, Option.some.injEq]
        exact ⟨fun h => ⟨hd.1, hd.2, value, rfl, he, h.symm⟩, by
          rintro ⟨-, -, v, rfl, -, rfl⟩
          rfl⟩
      · simp only [if_pos hd, if_neg he, reduceCtorEq, false_iff, Option.some.injEq]
        rintro ⟨-, -, v, rfl, he', -⟩
        exact he he'
    · simp only [if_neg hd, reduceCtorEq, false_iff]
      exact fun h => hd ⟨h.1, h.2.1⟩

/-- The names of imported functions are their own keys. -/
theorem MergedProgram.nameKey_value (p : MergedProgram) (hf : f ∈ p.decls) (hi : f.isImported)
    (hfn : f.isFunction) (hv : f.value = some value) : nameKey value = value := by
  obtain ⟨v, hv', -, hdot⟩ := p.named f hf hi hfn
  obtain rfl := Option.some.inj (hv'.symm.trans hv)
  exact nameKey_of_not_mem hdot

/-- A function that is not imported is walked at the start. -/
theorem isSeed_of_not_imported (hfn : d.isFunction) (hi : ¬d.isImported) : d.isSeed := by
  unfold Decl.isFunction at hfn
  simp only [decide_eq_true_eq] at hfn
  unfold Decl.isSeed
  rcases hfn with ht | ht <;> simp [ht, hi]

/-- What a reached name stands for is live. -/
theorem live_of_reachable (hr : key ∈ reachable p.decls) : ∀ f ∈ p.decls, f.isImported →
    f.isFunction → ∀ value, f.value = some value → value = key ∨ endsWithName value key →
    Live p.decls f := by
  obtain ⟨r, hroot, hpath⟩ := mem_reachable_iff.1 hr
  clear hr
  induction hpath with
  | refl =>
    intro f hf hi hfn value hv hk
    obtain ⟨d, hd, hkey⟩ := List.mem_flatMap.1 hroot
    obtain ⟨hd, hseed⟩ := List.mem_filter.1 hd
    exact .seed hd hseed hf hi hfn hv ⟨_, hkey, hk⟩
  | tail _ hnext ih =>
    intro f hf hi hfn value hv hk
    rcases mem_nextKeys.1 hnext with ⟨d, hd, hkey⟩ | ⟨d, hd, hsuf⟩
    · obtain ⟨hdm, hdf, hdv⟩ := pruneFindFunction_some hd
      by_cases hdi : d.isImported
      · exact .step (ih d hdm hdi hdf _ hdv (Or.inl rfl)) hf hi hfn hv ⟨_, hkey, hk⟩
      · exact .seed hdm (isSeed_of_not_imported hdf hdi) hf hi hfn hv ⟨_, hkey, hk⟩
    · obtain ⟨hdi, hdf, v, hdv, hend, rfl⟩ := suffixKey_eq_some.1 hsuf
      rw [p.nameKey_value hd hdi hdf hdv] at hk
      refine ih f hf hi hfn value hv (Or.inr ?_)
      rcases hk with rfl | hk
      · exact hend
      · exact endsWithName_trans hk hend

/-- What a reached name stands for is reached. -/
theorem reachable_value (hr : key ∈ reachable p.decls) (hf : f ∈ p.decls) (hi : f.isImported)
    (hfn : f.isFunction) (hv : f.value = some value) (hk : value = key ∨ endsWithName value key) :
    value ∈ reachable p.decls := by
  rcases hk with rfl | hk
  · exact hr
  · refine mem_reachable_iff.2 ((mem_reachable_iff.1 hr).tail (mem_nextKeys.2 (Or.inr ⟨f, hf, ?_⟩)))
    exact suffixKey_eq_some.2 ⟨hi, hfn, value, hv, hk, (p.nameKey_value hf hi hfn hv).symm⟩

theorem Live.imported (hl : Live decls f) : f ∈ decls ∧ f.isImported = true ∧
    f.isFunction = true ∧ ∃ value, f.value = some value := by
  rcases hl with ⟨-, -, hf, hi, hfn, hv, -⟩ | ⟨-, hf, hi, hfn, hv, -⟩ <;>
    exact ⟨hf, hi, hfn, _, hv⟩

theorem reachable_of_live (hl : Live p.decls f) : ∀ value, f.value = some value →
    value ∈ reachable p.decls := by
  induction hl with
  | seed hd hseed hf hi hfn hv hm =>
    intro value hv'
    obtain rfl := Option.some.inj (hv.symm.trans hv')
    obtain ⟨key, hkey, hk⟩ := hm
    refine reachable_value ?_ hf hi hfn hv hk
    refine mem_reachable_iff.2 (.root (List.mem_flatMap.2 ⟨_, ?_, hkey⟩))
    exact List.mem_filter.2 ⟨hd, hseed⟩
  | step hd hf hi hfn hv hm ih =>
    intro value hv'
    obtain rfl := Option.some.inj (hv.symm.trans hv')
    obtain ⟨key, hkey, hk⟩ := hm
    obtain ⟨hdm, hdi, hdf, v, hdv⟩ := hd.imported
    have hfind := pruneFindFunction_imported p hdm hdi hdf hdv
    refine reachable_value ?_ hf hi hfn hv hk
    refine mem_reachable_iff.2 ((mem_reachable_iff.1 (ih v hdv)).tail ?_)
    exact mem_nextKeys.2 (Or.inl ⟨_, hfind, hkey⟩)

/-! ### The pass -/

/-- An imported function is kept exactly if it is live. -/
theorem mem_prune_iff (p : MergedProgram) (hf : f ∈ p.decls) (hi : f.isImported)
    (hfn : f.isFunction) : f ∈ modulePruneUnreachable p.decls ↔ Live p.decls f := by
  obtain ⟨value, hv, -⟩ := p.named f hf hi hfn
  have hkept : f ∈ modulePruneUnreachable p.decls ↔ value ∈ reachable p.decls := by
    simp [modulePruneUnreachable, hf, isDropped, hv, hi, hfn]
  rw [hkept]
  exact ⟨fun hr => live_of_reachable hr f hf hi hfn value hv (Or.inl rfl),
    fun hl => reachable_of_live hl value hv⟩

theorem mem_prune_of_not (hf : f ∈ decls) (h : ¬(f.isImported ∧ f.isFunction)) :
    f ∈ modulePruneUnreachable decls := by
  refine List.mem_filter.2 ⟨hf, ?_⟩
  unfold isDropped
  rcases f.value with _ | value
  · rfl
  · rw [not_and_or, Bool.not_eq_true, Bool.not_eq_true] at h
    rcases h with h | h <;> simp [h]

theorem Decl.IsUnwalked.not_function (h : d.IsUnwalked) : ¬d.isFunction := by
  unfold Decl.isFunction
  rcases h with h | h <;> simp [h]

/-- What is neither walked at the start nor left out is an imported function. -/
theorem isSeed_of_declaration (hd : d.IsDeclaration) (hun : ¬d.IsUnwalked)
    (h : ¬(d.isImported ∧ d.isFunction)) : d.isSeed := by
  rcases hd with ht | ht | ht | hf | hu
  · simp [Decl.isSeed, ht]
  · simp [Decl.isSeed, ht]
  · simp [Decl.isSeed, ht]
  · exact isSeed_of_not_imported hf fun hi => h ⟨hi, hf⟩
  · exact absurd hu hun

/-- The pass is sound exactly on the programs in which constants, export lists and factories refer
to nothing else than what is live without them. -/
theorem prune_sound_iff (p : MergedProgram) : Sound p ↔ Covered p := by
  constructor
  · intro hs
    constructor
    · intro d hd hun f hf hi hfn value hv href
      have hdk : d ∈ modulePruneUnreachable p.decls :=
        mem_prune_of_not hd fun h => hun.not_function h.2
      exact (mem_prune_iff p hf hi hfn).1
        (hs.kept d hdk (Or.inr (Or.inr (Or.inr (Or.inr hun)))) f hf hi hfn value hv href)
    · intro d hd hb hlive f hf hi hfn hann
      have hdf : d.isFunction := by simp [Decl.isFunction, hb]
      have hdk : d ∈ modulePruneUnreachable p.decls := by
        by_cases hdi : d.isImported
        · exact (mem_prune_iff p hd hdi hdf).2 (hlive hdi)
        · exact mem_prune_of_not hd fun h => hdi h.1
      obtain ⟨value, hv, -⟩ := p.named f hf hi hfn
      refine (mem_prune_iff p hf hi hfn).1 (hs.kept d hdk ?_ f hf hi hfn value hv ?_)
      · exact Or.inr (Or.inr (Or.inr (Or.inl hdf)))
      · exact Or.inr ⟨hb, hann.symm.trans hv⟩
  · intro hc
    refine ⟨List.filter_sublist, ?_, ?_⟩
    · intro d hd hdrop
      by_contra hno
      exact hdrop (mem_prune_of_not hd hno)
    intro d hdk hdecl f hf hi hfn value hv href
    have hd : d ∈ p.decls := List.mem_of_mem_filter hdk
    refine (mem_prune_iff p hf hi hfn).2 ?_
    by_cases hun : d.IsUnwalked
    · exact hc.unwalked d hd hun f hf hi hfn value hv href
    have hlive (hdi : d.isImported) (hdf : d.isFunction) : Live p.decls d :=
      (mem_prune_iff p hd hdi hdf).1 hdk
    rcases href with ⟨name, hn, hden⟩ | ⟨hb, hann⟩
    · obtain ⟨v, hv', hlen, -⟩ := p.named f hf hi hfn
      obtain rfl := Option.some.inj (hv'.symm.trans hv)
      have hm := mentions_of_denotes hn hlen hden
      by_cases hdi : d.isImported ∧ d.isFunction
      · exact .step (hlive hdi.1 hdi.2) hf hi hfn hv hm
      · exact .seed hd (isSeed_of_declaration hdecl hun hdi) hf hi hfn hv hm
    · have hdf : d.isFunction := by simp [Decl.isFunction, hb]
      exact hc.factory d hd hb (fun hdi => hlive hdi hdf) f hf hi hfn (hv.trans hann.symm)

/-! ### A constant -/

/-- The name m_f. -/
def mfName : Str := [0x6d, 0x5f, 0x66]

def mf : Decl := ⟨node .functionDefinition (some mfName) none [], true, none⟩

/-- The constant m_x, whose initialiser calls m_f. -/
def mx : Decl :=
  ⟨node .constDeclaration (some [0x6d, 0x5f, 0x78]) none [node .functionCall (some mfName) none []],
    false, none⟩

def emptyMain : Decl := ⟨node .mainFunction none none [], false, none⟩

/-- A module with a function and a constant is imported, and main is empty. -/
def constantProgram : MergedProgram where
  decls := [mf, mx, emptyMain]
  unique := by simp [mf, mx, emptyMain, Decl.isFunction, Decl.type]
  named := by
    intro d hd hi hf
    have hmf : d = mf := by
      rcases List.mem_cons.1 hd with rfl | hd
      · rfl
      · simp only [List.mem_cons, List.not_mem_nil, or_false] at hd
        rcases hd with rfl | rfl <;> simp [mx, emptyMain] at hi
    exact ⟨mfName, by simp [hmf, mf, Decl.value], by decide, by decide⟩

theorem not_live_constantProgram : ∀ f, ¬Live constantProgram.decls f := by
  intro f hf
  induction hf with
  | seed hd hseed _ _ _ _ hm =>
    obtain ⟨key, hkey, -⟩ := hm
    simp only [constantProgram, List.mem_cons, List.not_mem_nil, or_false] at hd
    rcases hd with rfl | rfl | rfl
    · simp [Decl.isSeed, mf, Decl.type] at hseed
    · simp [Decl.isSeed, mx, Decl.type] at hseed
    · simp [emptyMain, collectedKeys, names, namesAll, ownNames] at hkey
  | step _ _ _ _ _ _ ih => exact ih

/-- The function that the constant calls is dropped. -/
theorem constant_calls_dropped : ¬Sound constantProgram := by
  intro hs
  have hmf : mf ∈ constantProgram.decls := by simp [constantProgram]
  have hmx : mx ∈ modulePruneUnreachable constantProgram.decls :=
    mem_prune_of_not (by simp [constantProgram]) (by simp [mx])
  have hkept := hs.kept mx hmx (Or.inr (Or.inr (Or.inr (Or.inr (Or.inl rfl))))) mf hmf rfl rfl
    mfName rfl (Or.inl ⟨mfName, by simp [mx, names, namesAll, ownNames], Or.inl rfl⟩)
  exact not_live_constantProgram mf ((mem_prune_iff _ hmf rfl rfl).1 hkept)

end Prune

end Aether

end Qjs
