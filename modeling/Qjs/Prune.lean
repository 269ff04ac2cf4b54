import Qjs.DeadCode
import Qjs.Lib.Worklist

/-!
# Pruning

`module_prune_unreachable` of `aether_module.c` drops the merged functions that nothing calls. It
follows names: those that the nodes of a tree mention are looked up among the functions, and a name
also stands for the imported functions whose names end in it after an underscore, for that is how
bare names of imported functions look. Dots are written as underscores.

The claim about the pass is `Sound`, and `Covered` says when it holds.
-/

namespace Qjs

namespace Aether

namespace Prune

open ASTNode

abbrev Str := List ℕ

def dot : ℕ := 0x2e

def underscore : ℕ := 0x5f

/-- A child of the program, with the fields of its node that are set on declarations. The annotation
of a builder names its factory. -/
structure Decl where
  node : ASTNode
  isImported : Bool
  annotation : Option Str

def Decl.type (d : Decl) : Option ASTNodeType :=
  match d.node with
  | .null => none
  | .node k _ _ _ => some k

def Decl.value (d : Decl) : Option Str :=
  match d.node with
  | .null => none
  | .node _ v _ _ => v

def Decl.isFunction (d : Decl) : Bool :=
  d.type = some .functionDefinition ∨ d.type = some .builderFunction

/-! ### Names -/

def undot (name : Str) : Str := name.map fun c => if c = dot then underscore else c

/-- The key under which `nameset_add` puts a name: one with dots goes through a buffer of 256
bytes. -/
def nameKey (name : Str) : Str := if dot ∈ name then undot (name.take 255) else name

/-- The names that a node mentions itself; `cut` is what becomes of a name that is put together. -/
def ownNames (cut : Str → Str) : ASTNode → List Str
  | node .functionCall (some v) _ _ => [v]
  | node .identifier (some v) _ _ => [v]
  | node .memberAccess (some v) _ (node .identifier (some w) _ _ :: _) => [cut (w ++ dot :: v)]
  | _ => []

mutual

/-- The names that a tree mentions, those of a node before those of its children. -/
def names (cut : Str → Str) : ASTNode → List Str
  | null => []
  | node k v ty cs => ownNames cut (node k v ty cs) ++ namesAll cut cs

def namesAll (cut : Str → Str) : List ASTNode → List Str
  | [] => []
  | c :: cs => names cut c ++ namesAll cut cs

end

/-- What `prune_collect_calls` adds to the sets, in order. Names are put together in a buffer of 256
bytes. -/
def collectedKeys (t : ASTNode) : List Str := (names (List.take 255) t).map nameKey

/-! ### The pass -/

/-- What is walked before anything else. -/
def Decl.isSeed (d : Decl) : Bool :=
  match d.type with
  | some .mainFunction | some .actorDefinition | some .exportStatement => true
  | some .functionDefinition | some .builderFunction => !d.isImported
  | _ => false

/-- `prune_find_function` -/
def pruneFindFunction (decls : List Decl) (name : Str) : Option Decl :=
  decls.find? fun d => d.isFunction ∧ d.value = some name

/-- `value` ends with an underscore and `name`, and there is something before. -/
def endsWithName (value name : Str) : Bool :=
  name.length + 1 < value.length ∧
    value.drop (value.length - name.length - 1) = underscore :: name

/-- The imported function that `d` is, if its name ends with `name`. -/
def suffixKey (name : Str) (d : Decl) : Option Str :=
  if d.isImported ∧ d.isFunction then
    match d.value with
    | some value => if endsWithName value name then some (nameKey value) else none
    | none => none
  else none

/-- What the body of the loop adds to the sets for a name from the list. -/
def nextKeys (decls : List Decl) (name : Str) : List Str :=
  ((pruneFindFunction decls name).map fun fn => collectedKeys fn.node).getD []
    ++ decls.filterMap (suffixKey name)

/-- All that can be added to the sets. -/
def allKeys (decls : List Decl) : Finset Str :=
  (decls.flatMap fun d => collectedKeys d.node ++ (d.value.map nameKey).toList).toFinset

theorem nextKeys_subset (decls : List Decl) (name : Str) :
    ∀ key ∈ nextKeys decls name, key ∈ allKeys decls := by
  intro key hkey
  rw [allKeys, List.mem_toFinset, List.mem_flatMap]
  rcases List.mem_append.1 hkey with hkey | hkey
  · rcases hf : pruneFindFunction decls name with _ | fn
    · simp [hf] at hkey
    · rw [hf] at hkey
      exact ⟨fn, List.mem_of_find?_eq_some hf, List.mem_append_left _ hkey⟩
  · obtain ⟨d, hd, hkey⟩ := List.mem_filterMap.1 hkey
    refine ⟨d, hd, List.mem_append_right _ ?_⟩
    unfold suffixKey at hkey
    split_ifs at hkey
    rcases hv : d.value with _ | value
    · simp [hv] at hkey
    · simp only [hv] at hkey
      split_ifs at hkey
      simpa using (Option.some.inj hkey).symm

/-- The sets before the loop. -/
def seedState (decls : List Decl) : Worklist.State Str :=
  ((decls.filter Decl.isSeed).flatMap fun d => collectedKeys d.node).foldl Worklist.note ⟨[], []⟩

/-- The names that are reached. -/
def reachable (decls : List Decl) : List Str :=
  (Worklist.run (nextKeys decls) (allKeys decls) (nextKeys_subset decls) (seedState decls)).seen

def isDropped (decls : List Decl) (d : Decl) : Bool :=
  match d.value with
  | some value => d.isImported && d.isFunction && !(reachable decls).contains value
  | none => false

/-- `module_prune_unreachable` -/
def modulePruneUnreachable (decls : List Decl) : List Decl :=
  decls.filter fun d => !isDropped decls d

/-! ### What it is to do -/

/-- A program as `module_merge_into_program` leaves it: a function is only added if there is none of
its name, under a name that was put together in a buffer of 256 bytes from two identifiers. -/
structure MergedProgram where
  decls : List Decl
  unique : (decls.filter Decl.isFunction).Pairwise fun d e =>
    d.isImported ∨ e.isImported → d.value ≠ e.value
  named : ∀ d ∈ decls, d.isImported → d.isFunction →
    ∃ value, d.value = some value ∧ value.length ≤ 255 ∧ dot ∉ value

/-- A name stands for the function of that name, and for those of which it is the bare name. -/
def Denotes (name value : Str) : Prop :=
  value = undot name ∨ ∃ ns, ns ≠ [] ∧ value = ns ++ underscore :: undot name

/-- `d` calls the function `value` or refers to it: by name, or as the factory of a builder. -/
def Decl.RefersTo (d : Decl) (value : Str) : Prop :=
  (∃ name ∈ names id d.node, Denotes name value)
    ∨ (d.type = some .builderFunction ∧ d.annotation = some value)

/-- Exports and constants are not walked. -/
def Decl.IsUnwalked (d : Decl) : Prop :=
  d.type = some .constDeclaration ∨ d.type = some .exportsList

/-- The declarations whose references count. -/
def Decl.IsDeclaration (d : Decl) : Prop :=
  d.type = some .mainFunction ∨ d.type = some .actorDefinition ∨ d.type = some .exportStatement
    ∨ d.isFunction ∨ d.IsUnwalked

/-- Only imported functions are dropped, nothing else is changed, and none is dropped that a
declaration that remains refers to. -/
structure Sound (p : MergedProgram) : Prop where
  sublist : (modulePruneUnreachable p.decls).Sublist p.decls
  dropped : ∀ d ∈ p.decls, d ∉ modulePruneUnreachable p.decls → d.isImported ∧ d.isFunction
  kept : ∀ d ∈ modulePruneUnreachable p.decls, d.IsDeclaration → ∀ f ∈ p.decls, f.isImported →
    f.isFunction → ∀ value, f.value = some value → d.RefersTo value →
    f ∈ modulePruneUnreachable p.decls

/-- `d` mentions `value`, as the keys of the names have it. -/
def Decl.Mentions (d : Decl) (value : Str) : Prop :=
  ∃ key ∈ collectedKeys d.node, value = key ∨ endsWithName value key

/-- The imported functions that main, the actors, the exported declarations and the functions of the
program mention, and those that these mention in turn. -/
inductive Live (decls : List Decl) : Decl → Prop
  | seed {d f value} : d ∈ decls → d.isSeed → f ∈ decls → f.isImported → f.isFunction →
      f.value = some value → d.Mentions value → Live decls f
  | step {d f value} : Live decls d → f ∈ decls → f.isImported → f.isFunction →
      f.value = some value → d.Mentions value → Live decls f

/-- The references that are not followed are to functions that are live anyway: those of constants
and of export lists, and the factories of the builders that remain. -/
structure Covered (p : MergedProgram) : Prop where
  unwalked : ∀ d ∈ p.decls, d.IsUnwalked → ∀ f ∈ p.decls, f.isImported → f.isFunction →
    ∀ value, f.value = some value → d.RefersTo value → Live p.decls f
  factory : ∀ d ∈ p.decls, d.type = some .builderFunction → (d.isImported → Live p.decls d) →
    ∀ f ∈ p.decls, f.isImported → f.isFunction → f.value = d.annotation → Live p.decls f

end Prune

end Aether

end Qjs
