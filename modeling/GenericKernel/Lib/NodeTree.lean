import Mathlib.Data.Set.Finite.Basic
import Mathlib.Logic.Function.Basic

/-!
# Trees of named nodes

Nodes with named edges and a value at each live node, as a filesystem keeps them, and the map
from paths to values that they stand for.

* `NodeGraph.walk`, `NodeGraph.entry` — follow a path; the value at its end.
* `NodeGraph.Tree` — every edge joins live nodes, no node has two parents, the root has none.
  Then a node has one path (`Tree.walk_inj`).
* `link`, `unlink`, `setInfo` — a fresh leaf, a leaf removed, a value changed. Each keeps the tree
  and changes the path map at one path (`entry_link`, `entry_unlink`, `entry_setInfo`).
-/

namespace GenericKernel.Lib

/-- Nodes `I` with edges named by `N`; a node is live if it has a value. -/
@[ext] structure NodeGraph (I N P : Type) where
  child : I → N → Option I
  info : I → Option P

namespace NodeGraph

variable {I N P : Type} {g : NodeGraph I N P} {root p i : I} {n : N} {q : List N}

/-- The node at the end of a path. -/
def walk (g : NodeGraph I N P) : I → List N → Option I
  | i, [] => some i
  | i, n :: path => (g.child i n).bind fun j => g.walk j path

/-- The value at the end of a path. -/
def entry (g : NodeGraph I N P) (root : I) (path : List N) : Option P :=
  (g.walk root path).bind g.info

/-- Walking looks at the edges only. -/
theorem walk_congr {g g' : NodeGraph I N P} (h : g'.child = g.child) (i : I) (path : List N) :
    g'.walk i path = g.walk i path := by
  induction path generalizing i with
  | nil => rfl
  | cons n path ih =>
    rw [walk, walk, h]
    exact congrArg _ (funext ih)

theorem walk_append (g : NodeGraph I N P) (i : I) (path rest : List N) :
    g.walk i (path ++ rest) = (g.walk i path).bind fun j => g.walk j rest := by
  induction path generalizing i with
  | nil => rfl
  | cons n path ih =>
    simp only [List.cons_append, walk]
    cases g.child i n with
    | none => rfl
    | some j => exact ih j

theorem walk_concat (g : NodeGraph I N P) (i : I) (path : List N) (n : N) :
    g.walk i (path ++ [n]) = (g.walk i path).bind fun j => g.child j n := by
  rw [walk_append]
  cases g.walk i path with
  | none => rfl
  | some j =>
    show (g.child j n).bind (fun k => g.walk k []) = g.child j n
    cases g.child j n <;> rfl

/-- The live nodes form a tree. -/
structure Tree (g : NodeGraph I N P) (root : I) : Prop where
  live : (g.info root).isSome
  edge : ∀ {p n i}, g.child p n = some i → (g.info p).isSome ∧ (g.info i).isSome
  parent_unique : ∀ {p n p' n' i}, g.child p n = some i → g.child p' n' = some i →
    p = p' ∧ n = n'
  root_top : ∀ p n, g.child p n ≠ some root

theorem Tree.live_walk (h : Tree g root) (hwalk : g.walk root q = some i) : (g.info i).isSome := by
  induction q using List.reverseRecOn with
  | nil =>
    obtain rfl : root = i := Option.some.inj hwalk
    exact h.live
  | append_singleton q n _ =>
    rw [walk_concat, Option.bind_eq_some_iff] at hwalk
    obtain ⟨p, -, hchild⟩ := hwalk
    exact (h.edge hchild).2

/-- A node has one path. -/
theorem Tree.walk_inj (h : Tree g root) {q' : List N} (hq : g.walk root q = some i)
    (hq' : g.walk root q' = some i) : q = q' := by
  induction q using List.reverseRecOn generalizing q' i with
  | nil =>
    obtain rfl : root = i := Option.some.inj hq
    induction q' using List.reverseRecOn with
    | nil => rfl
    | append_singleton q' n _ =>
      rw [walk_concat, Option.bind_eq_some_iff] at hq'
      obtain ⟨p, -, hchild⟩ := hq'
      exact absurd hchild (h.root_top p n)
  | append_singleton q n ih =>
    rw [walk_concat, Option.bind_eq_some_iff] at hq
    obtain ⟨p, hp, hchild⟩ := hq
    induction q' using List.reverseRecOn with
    | nil =>
      obtain rfl : root = i := Option.some.inj hq'
      exact absurd hchild (h.root_top p n)
    | append_singleton q' n' _ =>
      rw [walk_concat, Option.bind_eq_some_iff] at hq'
      obtain ⟨p', hp', hchild'⟩ := hq'
      obtain ⟨rfl, rfl⟩ := h.parent_unique hchild hchild'
      rw [ih hp hp']

theorem entry_of_walk (hq : g.walk root q = some i) : g.entry root q = g.info i := by
  rw [entry, hq]
  rfl

/-- A path has an entry exactly when it can be walked. -/
theorem Tree.entry_eq_none (h : Tree g root) : g.entry root q = none ↔ g.walk root q = none := by
  cases hq : g.walk root q with
  | none => simp [entry, hq]
  | some i =>
    have hlive := h.live_walk hq
    rw [entry_of_walk hq]
    cases hinfo : g.info i with
    | none => simp [hinfo] at hlive
    | some x => simp

/-- The entries of a node's children. -/
theorem entry_concat (hq : g.walk root q = some p) (n : N) :
    g.entry root (q ++ [n]) = (g.child p n).bind g.info := by
  rw [entry, walk_concat, hq]
  rfl

/-- The set of paths with an entry is closed under prefixes. -/
theorem Tree.entry_of_append (h : Tree g root) {rest : List N}
    (hne : g.entry root (q ++ rest) ≠ none) : g.entry root q ≠ none := by
  intro hnone
  rw [h.entry_eq_none] at hnone
  refine hne (h.entry_eq_none.mpr ?_)
  rw [walk_append, hnone]
  rfl

/-- A dead node has no children. -/
theorem Tree.child_of_dead (h : Tree g root) (hdead : g.info i = none) (m : N) :
    g.child i m = none := by
  cases hm : g.child i m with
  | none => rfl
  | some j =>
    have := (h.edge hm).1
    simp [hdead] at this

section Update

variable [DecidableEq I] [DecidableEq N]

/-- A new node `i` with value `x`, the child `n` of `p`. -/
def link (g : NodeGraph I N P) (p : I) (n : N) (i : I) (x : P) : NodeGraph I N P where
  child := Function.update g.child p (Function.update (g.child p) n (some i))
  info := Function.update g.info i (some x)

/-- Without the node `i`, the child `n` of `p`. -/
def unlink (g : NodeGraph I N P) (p : I) (n : N) (i : I) : NodeGraph I N P where
  child := Function.update g.child p (Function.update (g.child p) n none)
  info := Function.update g.info i none

/-- With the value `x` at the node `i`. -/
def setInfo (g : NodeGraph I N P) (i : I) (x : P) : NodeGraph I N P :=
  { g with info := Function.update g.info i (some x) }

/-- One edge replaced. -/
theorem child_update (p' : I) (n' : N) (c : Option I) :
    Function.update g.child p (Function.update (g.child p) n c) p' n' =
      if p' = p ∧ n' = n then c else g.child p' n' := by
  by_cases hp : p' = p
  · subst hp
    rw [Function.update_self]
    by_cases hn : n' = n
    · subst hn
      simp
    · rw [Function.update_of_ne hn, if_neg fun hin => hn hin.2]
  · rw [Function.update_of_ne hp, if_neg fun hin => hp hin.1]

theorem child_link (p' : I) (n' : N) (x : P) :
    (g.link p n i x).child p' n' = if p' = p ∧ n' = n then some i else g.child p' n' :=
  child_update p' n' _

theorem child_unlink (p' : I) (n' : N) :
    (g.unlink p n i).child p' n' = if p' = p ∧ n' = n then none else g.child p' n' :=
  child_update p' n' _

/-- Walking after the edge from `p`, the end of `q`, is replaced: all other paths go on as
before, provided nothing lies below the edge, before or after. -/
theorem Tree.walk_update (h : Tree g root) (hq : g.walk root q = some p) {c : Option I}
    {g' : NodeGraph I N P}
    (hg' : ∀ p' n', g'.child p' n' = if p' = p ∧ n' = n then c else g.child p' n')
    (hold : ∀ i, g.child p n = some i → ∀ m, g.child i m = none)
    (hnew : ∀ i, c = some i → ∀ m, g'.child i m = none) (path : List N) :
    g'.walk root path = if path = q ++ [n] then c else g.walk root path := by
  induction path using List.reverseRecOn with
  | nil => simp [walk]
  | append_singleton path m ih =>
    rw [walk_concat, walk_concat, ih]
    by_cases hpath : path = q ++ [n]
    -- below the edge there is nothing
    · subst hpath
      have hne : q ++ [n] ++ [m] ≠ q ++ [n] := by simp
      rw [if_pos rfl, if_neg hne, walk_concat, hq]
      show (c.bind fun j => g'.child j m) = (g.child p n).bind fun j => g.child j m
      have hc : (c.bind fun j => g'.child j m) = none := by
        cases hc : c with
        | none => rfl
        | some i => exact hnew i hc m
      rw [hc]
      cases hi : g.child p n with
      | none => rfl
      | some i => exact (hold i hi m).symm
    · rw [if_neg hpath]
      cases hj : g.walk root path with
      | none =>
        have hne : path ++ [m] ≠ q ++ [n] := by
          intro heq
          rw [(List.append_inj' heq rfl).1, hq] at hj
          cases hj
        rw [if_neg hne]
        rfl
      | some j =>
        show g'.child j m = if path ++ [m] = q ++ [n] then c else g.child j m
        rw [hg']
        have hsame : (j = p ∧ m = n) ↔ path ++ [m] = q ++ [n] := by
          constructor
          · rintro ⟨rfl, rfl⟩
            rw [h.walk_inj hj hq]
          · intro heq
            obtain ⟨rfl, hmn⟩ := List.append_inj' heq rfl
            rw [hq] at hj
            exact ⟨(Option.some.inj hj).symm, by simpa using hmn⟩
        simp only [hsame]

section Link

variable {x : P} (h : Tree g root) (hq : g.walk root q = some p) (hfree : g.child p n = none)
  (hdead : g.info i = none)
include h hq hfree hdead

theorem walk_link (path : List N) : (g.link p n i x).walk root path =
    if path = q ++ [n] then some i else g.walk root path := by
  have hne : i ≠ p := by
    rintro rfl
    have := h.live_walk hq
    simp [hdead] at this
  refine h.walk_update hq (fun p' n' => child_link p' n' x) (fun j hj => ?_) (fun j hj m => ?_) path
  · rw [hfree] at hj
    cases hj
  · obtain rfl := Option.some.inj hj
    rw [child_link, if_neg fun hin => hne hin.1]
    exact h.child_of_dead hdead m

theorem entry_link : (g.link p n i x).entry root =
    Function.update (g.entry root) (q ++ [n]) (some x) := by
  funext path
  rw [entry, walk_link h hq hfree hdead]
  by_cases hpath : path = q ++ [n]
  · rw [if_pos hpath, hpath, Function.update_self]
    exact Function.update_self i (some x) g.info
  · rw [if_neg hpath, Function.update_of_ne hpath, entry]
    cases hj : g.walk root path with
    | none => rfl
    | some j =>
      have hne : j ≠ i := by
        rintro rfl
        have := h.live_walk hj
        simp [hdead] at this
      exact Function.update_of_ne hne _ _

omit hq hfree in
theorem tree_link (hlive : (g.info p).isSome) : Tree (g.link p n i x) root := by
  have hmono : ∀ j, (g.info j).isSome → ((g.link p n i x).info j).isSome := by
    intro j hj
    show (Function.update g.info i (some x) j).isSome
    by_cases hji : j = i
    · rw [hji, Function.update_self]
      rfl
    · rwa [Function.update_of_ne hji]
  have hself : ((g.link p n i x).info i).isSome := by
    show (Function.update g.info i (some x) i).isSome
    rw [Function.update_self]
    rfl
  have hcases : ∀ {p' n' j}, (g.link p n i x).child p' n' = some j →
      (p' = p ∧ n' = n ∧ j = i) ∨ g.child p' n' = some j := by
    intro p' n' j hj
    rw [child_link] at hj
    split at hj
    · rename_i hin
      exact Or.inl ⟨hin.1, hin.2, (Option.some.inj hj).symm⟩
    · exact Or.inr hj
  have hfresh : ∀ {p' n'}, g.child p' n' ≠ some i := by
    intro p' n' hi
    have := (h.edge hi).2
    simp [hdead] at this
  refine ⟨hmono _ h.live, fun {p' n' j} hj => ?_, fun {p' n' p'' n'' j} hj hj' => ?_, fun p' n' hj => ?_⟩
  · rcases hcases hj with ⟨rfl, rfl, rfl⟩ | hold
    · exact ⟨hmono _ hlive, hself⟩
    · exact ⟨hmono _ (h.edge hold).1, hmono _ (h.edge hold).2⟩
  · rcases hcases hj with ⟨rfl, rfl, rfl⟩ | hold
    · rcases hcases hj' with ⟨rfl, rfl, -⟩ | hold'
      · exact ⟨rfl, rfl⟩
      · exact absurd hold' hfresh
    · rcases hcases hj' with ⟨rfl, rfl, rfl⟩ | hold'
      · exact absurd hold hfresh
      · exact h.parent_unique hold hold'
  · rcases hcases hj with ⟨-, -, rfl⟩ | hold
    · have := h.live
      simp [hdead] at this
    · exact h.root_top p' n' hold

end Link

section Unlink

variable (h : Tree g root) (hq : g.walk root q = some p) (hchild : g.child p n = some i)
  (hleaf : ∀ m, g.child i m = none)
include h hq hchild hleaf

theorem walk_unlink (path : List N) : (g.unlink p n i).walk root path =
    if path = q ++ [n] then none else g.walk root path := by
  refine h.walk_update hq (fun p' n' => child_unlink p' n') (fun j hj m => ?_) (fun j hj => ?_) path
  · rw [hchild] at hj
    obtain rfl := Option.some.inj hj
    exact hleaf m
  · cases hj

theorem entry_unlink : (g.unlink p n i).entry root =
    Function.update (g.entry root) (q ++ [n]) none := by
  have hi : g.walk root (q ++ [n]) = some i := by
    rw [walk_concat, hq]
    exact hchild
  funext path
  rw [entry, walk_unlink h hq hchild hleaf]
  by_cases hpath : path = q ++ [n]
  · rw [if_pos hpath, hpath, Function.update_self]
    rfl
  · rw [if_neg hpath, Function.update_of_ne hpath, entry]
    cases hj : g.walk root path with
    | none => rfl
    | some j =>
      have hne : j ≠ i := by
        rintro rfl
        exact hpath (h.walk_inj hj hi)
      exact Function.update_of_ne hne _ _

omit hq in
theorem tree_unlink : Tree (g.unlink p n i) root := by
  have hcases : ∀ {p' n' j}, (g.unlink p n i).child p' n' = some j →
      ¬ (p' = p ∧ n' = n) ∧ g.child p' n' = some j := by
    intro p' n' j hj
    rw [child_unlink] at hj
    split at hj
    · cases hj
    · exact ⟨‹_›, hj⟩
  have hother : ∀ j, j ≠ i → (g.unlink p n i).info j = g.info j := fun j hne =>
    Function.update_of_ne hne _ _
  refine ⟨?_, fun {p' n' j} hj => ?_, fun hj hj' => ?_, fun p' n' hj => ?_⟩
  · rw [hother root]
    · exact h.live
    · rintro rfl
      exact h.root_top p n hchild
  · obtain ⟨hne, hold⟩ := hcases hj
    rw [hother p', hother j]
    · exact h.edge hold
    · rintro rfl
      exact hne (h.parent_unique hold hchild)
    · rintro rfl
      rw [hleaf] at hold
      cases hold
  · exact h.parent_unique (hcases hj).2 (hcases hj').2
  · exact h.root_top p' n' (hcases hj).2

end Unlink

omit [DecidableEq N] in
theorem walk_setInfo (x : P) (i : I) (path : List N) (j : I) :
    (g.setInfo i x).walk j path = g.walk j path := by
  induction path generalizing j with
  | nil => rfl
  | cons n path ih =>
    show (g.child j n).bind _ = (g.child j n).bind _
    simp only [ih]

theorem Tree.entry_setInfo (h : Tree g root) (hq : g.walk root q = some i) (x : P) :
    (g.setInfo i x).entry root = Function.update (g.entry root) q (some x) := by
  funext path
  rw [entry, walk_setInfo]
  by_cases hpath : path = q
  · rw [hpath, hq, Function.update_self]
    exact Function.update_self i (some x) g.info
  · rw [Function.update_of_ne hpath, entry]
    cases hj : g.walk root path with
    | none => rfl
    | some j =>
      have hne : j ≠ i := by
        rintro rfl
        exact hpath (h.walk_inj hj hq)
      exact Function.update_of_ne hne _ _

omit [DecidableEq N] in
theorem Tree.setInfo (h : Tree g root) (i : I) (x : P) : Tree (g.setInfo i x) root := by
  have hmono : ∀ j, (g.info j).isSome → ((g.setInfo i x).info j).isSome := by
    intro j hj
    show (Function.update g.info i (some x) j).isSome
    by_cases hji : j = i
    · rw [hji, Function.update_self]
      rfl
    · rwa [Function.update_of_ne hji]
  exact ⟨hmono _ h.live, fun hj => ⟨hmono _ (h.edge hj).1, hmono _ (h.edge hj).2⟩,
    h.parent_unique, h.root_top⟩

end Update

/-! ## Values translated -/

section Map

variable {Q : Type} (f : P → Q)

def map (g : NodeGraph I N P) : NodeGraph I N Q where
  child := g.child
  info i := (g.info i).map f

theorem walk_map (i : I) (path : List N) : (g.map f).walk i path = g.walk i path := by
  induction path generalizing i with
  | nil => rfl
  | cons n path ih =>
    show (g.child i n).bind _ = (g.child i n).bind _
    simp only [ih]

theorem entry_map (path : List N) : (g.map f).entry root path = (g.entry root path).map f := by
  unfold entry
  rw [walk_map]
  cases g.walk root path <;> rfl

theorem Tree.map (h : Tree g root) : Tree (g.map f) root where
  live := by simpa [NodeGraph.map] using h.live
  edge hchild := by simpa [NodeGraph.map] using h.edge hchild
  parent_unique := h.parent_unique
  root_top := h.root_top

variable [DecidableEq I] [DecidableEq N]

theorem map_link (x : P) : (g.link p n i x).map f = (g.map f).link p n i (f x) := by
  unfold link map
  congr 1
  funext j
  by_cases hj : j = i
  · subst hj
    simp
  · simp [Function.update_of_ne hj]

theorem map_unlink : (g.unlink p n i).map f = (g.map f).unlink p n i := by
  unfold unlink map
  congr 1
  funext j
  by_cases hj : j = i
  · subst hj
    simp
  · simp [Function.update_of_ne hj]

end Map

end NodeGraph

end GenericKernel.Lib
