import GenericKernel.Vfs.Vfs

/-!
# Routing on components

`route` works on strings: it compares prefixes, byte lengths and slices. On canonical paths it
finds the longest mount path that is a prefix of the path's components, and what is left over.

* `Vfs.Placed` — the mount paths are canonical, different, and `/` is the first.
* `Vfs.Routes`, `route_joinPath` — what `route` returns.
* `withInode_routed`, `withInodeMut_routed`, `withParentMut_routed` — the frame of the operations on
  a routed path.
-/

namespace GenericKernel.VfsCore

theorem nameBytes_append (s t : String) :
    (nameBytes (s ++ t)).length = (nameBytes s).length + (nameBytes t).length := by
  have hsize : ∀ u : String, (nameBytes u).length = u.utf8ByteSize := fun _ => rfl
  rw [hsize, hsize, hsize, String.utf8ByteSize_append]

theorem joinPath_append {cs ds : List String} (hcs : cs ≠ []) (hds : ds ≠ []) :
    joinPath (cs ++ ds) = joinPath cs ++ joinPath ds := by
  rw [← String.toList_inj, String.toList_append, toList_joinPath hcs, toList_joinPath hds,
    toList_joinPath (by simp [hcs]), pathChars_append]

/-- The size of a path, by which `route` compares its matches. -/
def pathSize (cs : List String) : Nat := (nameBytes (joinPath cs)).length

theorem pathSize_nil : pathSize [] = 1 := by
  rw [pathSize, joinPath_nil]
  rfl

theorem one_lt_pathSize {cs : List String} (h : Canonical cs) (hne : cs ≠ []) : 1 < pathSize cs := by
  cases cs with
  | nil => exact absurd rfl hne
  | cons name cs =>
    have hname := (h name (List.mem_cons_self ..)).toList_ne_nil
    have hsplit : joinPath (name :: cs) = "/" ++ (name ++ String.ofList (pathChars cs)) := by
      rw [← String.toList_inj, toList_joinPath hne, String.toList_append, String.toList_append,
        String.toList_ofList]
      simp [pathChars]
    have hpos : 0 < (nameBytes name).length := by
      apply Nat.pos_of_ne_zero
      intro hzero
      have : name.utf8ByteSize = 0 := hzero
      rw [String.utf8ByteSize_eq_zero_iff] at this
      exact hname (by rw [this]; rfl)
    rw [pathSize, hsplit, nameBytes_append, nameBytes_append]
    have hslash : (nameBytes "/").length = 1 := rfl
    omega

/-- A longer path is bigger. -/
theorem pathSize_lt {cs ds : List String} (h : Canonical (cs ++ ds)) (hne : ds ≠ []) :
    pathSize cs < pathSize (cs ++ ds) := by
  by_cases hcs : cs = []
  · subst hcs
    rw [pathSize_nil]
    exact one_lt_pathSize h (by simpa using hne)
  · have hds := one_lt_pathSize (Canonical.append.mp h).2 hne
    unfold pathSize at hds ⊢
    rw [joinPath_append hcs hne, nameBytes_append]
    omega

namespace Vfs

variable {F α : Type} {v : Vfs F} {places : List (List String)} {cs rel : List String}

/-- A match of `route` is a prefix of the components. -/
theorem matches_iff {place : List String} (hcs : Canonical cs) (hplace : Canonical place)
    (hne : place ≠ []) :
    (joinPath cs = joinPath place ∨ isNested (joinPath cs) (joinPath place)) ↔ place <+: cs := by
  constructor
  · rintro (heq | ⟨⟨rest, hrest⟩, hhead⟩)
    · rw [joinPath_inj hcs hplace heq]
    · rw [toList_joinPath hne] at hrest hhead
      rw [← hrest, List.drop_left, List.head?_eq_some_iff] at hhead
      obtain ⟨rest', rfl⟩ := hhead
      by_cases hnil : cs = []
      · have hsize := one_lt_pathSize hplace hne
        subst hnil
        rw [toList_joinPath_nil] at hrest
        have hlength := congrArg List.length hrest
        cases place with
        | nil => exact absurd rfl hne
        | cons name place =>
          have := congrArg List.length hrest
          simp [pathChars] at this
      · rw [toList_joinPath hnil] at hrest
        exact pathChars_prefix hplace hcs hrest.symm
  · rintro ⟨rest, rfl⟩
    cases rest with
    | nil => exact Or.inl (by rw [List.append_nil])
    | cons name rest =>
      right
      unfold isNested
      rw [toList_joinPath hne, toList_joinPath (by simp), pathChars_append, List.drop_left]
      exact ⟨List.prefix_append _ _, rfl⟩

/-- The mount paths, as components. -/
structure Placed (v : Vfs F) (places : List (List String)) : Prop where
  paths : v.mounts.map Mount.path = places.map joinPath
  canonical : ∀ place ∈ places, Canonical place
  root : places[0]? = some []
  nodup : places.Nodup

namespace Placed

variable (h : Placed v places)
include h

theorem length_eq : places.length = v.mounts.length := by
  have := congrArg List.length h.paths
  simpa using this.symm

theorem place_at (k : Fin v.mounts.length) :
    ∃ place, places[k.val]? = some place ∧ (getElem v.mounts k k.isLt).path = joinPath place := by
  have hk : k.val < places.length := by rw [h.length_eq]; exact k.isLt
  refine ⟨places[k.val], List.getElem?_eq_getElem hk, ?_⟩
  have hpath := congrArg (·[k.val]?) h.paths
  simp only [List.getElem?_map, List.getElem?_eq_getElem hk, List.getElem?_eq_getElem k.isLt,
    Option.map_some, Option.some.injEq] at hpath
  exact hpath

theorem canonical_at {k : Nat} {place : List String} (hk : places[k]? = some place) :
    Canonical place :=
  h.canonical place (List.mem_of_getElem? hk)

/-- Only the first mount is `/`. -/
theorem place_ne_nil {k : Nat} {place : List String} (hpos : 0 < k)
    (hk : places[k]? = some place) : place ≠ [] := by
  rintro rfl
  obtain ⟨hlt, hk'⟩ := List.getElem?_eq_some_iff.mp hk
  obtain ⟨hlt0, h0⟩ := List.getElem?_eq_some_iff.mp h.root
  have := (List.Nodup.getElem_inj_iff h.nodup).mp (h0.trans hk'.symm)
  omega

end Placed

/-- The path `cs` belongs to mount `k` at `place`, and is `rel` there. -/
structure Routes (v : Vfs F) (places : List (List String)) (cs : List String)
    (k : Fin v.mounts.length) (place rel : List String) : Prop where
  route : v.route (joinPath cs) = (k, joinPath rel)
  mounted : places[k.val]? = some place
  split : place ++ rel = cs
  longest : ∀ place' ∈ places, place' <+: cs → place' <+: place

/-- The best match among the mounts seen so far. -/
structure Best (places : List (List String)) (cs : List String) (seen : List (Fin v.mounts.length))
    (best : Fin v.mounts.length × Nat) (place : List String) : Prop where
  mounted : places[best.1.val]? = some place
  fits : place <+: cs
  size : best.2 = pathSize place
  longest : ∀ k ∈ seen, ∀ place', places[k.val]? = some place' → place' <+: cs →
    pathSize place' ≤ pathSize place

theorem Best.step {seen : List (Fin v.mounts.length)} {best : Fin v.mounts.length × Nat}
    {place : List String} (hp : Placed v places) (hcs : Canonical cs)
    (hbest : Best places cs seen best place) {k : Fin v.mounts.length} (hk : 0 < k.val) :
    ∃ place', Best places cs (seen ++ [k]) (v.better (joinPath cs) best k) place' := by
  obtain ⟨new, hnew, hpath⟩ := hp.place_at k
  have hmatch := matches_iff hcs (hp.canonical_at hnew) (hp.place_ne_nil hk hnew)
  unfold better
  simp only [hpath, hmatch, hbest.size]
  change ∃ place', Best places cs (seen ++ [k])
    (if new <+: cs ∧ pathSize place < pathSize new then (k, pathSize new) else best) place'
  split
  · rename_i hbetter
    refine ⟨new, hnew, hbetter.1, rfl, fun j hj place' hplace' hfits => ?_⟩
    rcases List.mem_append.mp hj with hj | hj
    · exact (hbest.longest j hj place' hplace' hfits).trans hbetter.2.le
    · obtain rfl := List.mem_singleton.mp hj
      rw [hnew] at hplace'
      exact (congrArg pathSize (Option.some.inj hplace')).ge
  · rename_i hworse
    refine ⟨place, hbest.mounted, hbest.fits, hbest.size, fun j hj place' hplace' hfits => ?_⟩
    rcases List.mem_append.mp hj with hj | hj
    · exact hbest.longest j hj place' hplace' hfits
    · obtain rfl := List.mem_singleton.mp hj
      rw [hnew] at hplace'
      obtain rfl := Option.some.inj hplace'
      exact not_lt.mp fun hlt => hworse ⟨hfits, hlt⟩

theorem bestMount_best (hp : Placed v places) (hcs : Canonical cs) :
    ∃ place, Best places cs ((List.finRange v.mounts.length).drop 1) (v.bestMount (joinPath cs))
      place := by
  have hloop : ∀ seen : List (Fin v.mounts.length), (∀ k ∈ seen, 0 < k.val) →
      ∃ place, Best places cs seen
        (seen.foldl (v.better (joinPath cs)) (⟨0, v.nonempty⟩, 1)) place := by
    intro seen
    induction seen using List.reverseRecOn with
    | nil =>
      exact fun _ => ⟨[], hp.root, List.nil_prefix, pathSize_nil.symm, fun k hk => nomatch hk⟩
    | append_singleton seen k ih =>
      intro hpos
      obtain ⟨place, hbest⟩ := ih fun j hj => hpos j (List.mem_append_left _ hj)
      rw [List.foldl_append]
      exact hbest.step hp hcs (hpos k (by simp))
  refine hloop _ fun k hk => ?_
  obtain ⟨i, hi, rfl⟩ := List.mem_iff_getElem.mp hk
  simp

/-- **Routing**: the longest mount path that is a prefix, and the rest of the path. -/
theorem route_joinPath (hp : Placed v places) (hcs : Canonical cs) :
    ∃ k place rel, Routes v places cs k place rel := by
  obtain ⟨place, hbest⟩ := bestMount_best hp hcs
  obtain ⟨rel, rfl⟩ := hbest.fits
  refine ⟨(v.bestMount (joinPath (place ++ rel))).1, place, rel, ?_, hbest.mounted, rfl, ?_⟩
  · obtain ⟨place', hplace', hpath⟩ := hp.place_at (v.bestMount (joinPath (place ++ rel))).1
    rw [hbest.mounted] at hplace'
    obtain rfl := Option.some.inj hplace'
    unfold route
    simp only [hpath, joinPath_eq_slash (hp.canonical_at hbest.mounted)]
    by_cases hnil : place = []
    · rw [if_pos hnil, hnil, List.nil_append]
    · rw [if_neg hnil, toList_joinPath hnil, toList_joinPath (by simp [hnil]), pathChars_append,
        List.drop_left]
      by_cases hrel : rel = []
      · subst hrel
        rw [joinPath_nil]
        rfl
      · rw [← toList_joinPath hrel, String.ofList_toList, if_neg]
        rw [toList_joinPath hrel]
        cases rel with
        | nil => exact absurd rfl hrel
        | cons name rel => simp [pathChars]
  · intro place' hmem hfits
    obtain ⟨j, hj, hplace'⟩ := List.mem_iff_getElem.mp hmem
    have hget : places[j]? = some place' := by rw [List.getElem?_eq_getElem hj, hplace']
    by_cases hzero : j = 0
    · subst hzero
      rw [hp.root] at hget
      rw [← Option.some.inj hget]
      exact List.nil_prefix
    -- two prefixes of one path are comparable, and the other one is not bigger
    · rcases List.prefix_or_prefix_of_prefix hfits hbest.fits with hle | ⟨rest, hrest⟩
      · exact hle
      · have hjlt : j < v.mounts.length := by rw [← hp.length_eq]; exact hj
        have hseen : (⟨j, hjlt⟩ : Fin v.mounts.length) ∈
            (List.finRange v.mounts.length).drop 1 := by
          refine List.mem_iff_getElem.mpr ⟨j - 1, by simp; omega, ?_⟩
          simp only [List.getElem_drop, List.getElem_finRange, Fin.cast_mk]
          exact Fin.ext (by simp; omega)
        have hsize := hbest.longest _ hseen place' hget hfits
        by_cases hrest' : rest = []
        · rw [hrest', List.append_nil] at hrest
          rw [hrest]
        · have hcanonical : Canonical (place ++ rest) := by
            rw [hrest]
            exact hp.canonical place' hmem
          have hlt := pathSize_lt hcanonical hrest'
          rw [hrest] at hlt
          omega

theorem Routes.rel_canonical {k : Fin v.mounts.length} {place : List String}
    (h : Routes v places cs k place rel) (hcs : Canonical cs) : Canonical rel := by
  rw [← h.split] at hcs
  exact (Canonical.append.mp hcs).2

/-! ## The frame of the operations -/

section Frame

variable [FileSystem F] {path : String} {k : Fin v.mounts.length}

theorem withInode_of_error {e : VfsError} (h : canonicalPath path = .error e)
    (op : F → Nat → Except VfsError α) : v.withInode path op = .error e := by
  unfold withInode
  rw [normalizePath_eq, h]
  rfl

theorem withInode_routed (h : canonicalPath path = .ok cs)
    (hroute : v.route (joinPath cs) = (k, joinPath rel)) (hrel : Canonical rel)
    (op : F → Nat → Except VfsError α) :
    v.withInode path op =
      resolve (getElem v.mounts k k.isLt).filesystem rel >>=
        op (getElem v.mounts k k.isLt).filesystem := by
  unfold withInode
  rw [normalizePath_eq, h]
  show (resolveInode v.mounts[(v.route (joinPath cs)).1].filesystem (v.route (joinPath cs)).2 >>=
    op v.mounts[(v.route (joinPath cs)).1].filesystem) = _
  simp only [hroute]
  rw [resolveInode_joinPath _ hrel]

theorem withInodeMut_of_error {e : VfsError} (h : canonicalPath path = .error e)
    (op : F → Nat → Except VfsError α × F) : v.withInodeMut path op = (.error e, v) := by
  unfold withInodeMut
  rw [normalizePath_eq, h]
  rfl

theorem withInodeMut_routed (h : canonicalPath path = .ok cs)
    (hroute : v.route (joinPath cs) = (k, joinPath rel)) (hrel : Canonical rel)
    (op : F → Nat → Except VfsError α × F) :
    v.withInodeMut path op =
      match resolve (getElem v.mounts k k.isLt).filesystem rel with
      | .error e => (.error e, v)
      | .ok inode => v.onMount k fun filesystem => op filesystem inode := by
  unfold withInodeMut
  rw [normalizePath_eq, h]
  have hresolve := resolveInode_joinPath v.mounts[k].filesystem hrel
  cases hresult : resolve v.mounts[k].filesystem rel with
  | error e => simp only [Except.map, hroute, hresolve, hresult]
  | ok inode => simp only [Except.map, hroute, hresolve, hresult]

theorem withParentMut_of_error {e : VfsError} (h : canonicalPath path = .error e)
    (op : F → Nat → String → Except VfsError α × F) : v.withParentMut path op = (.error e, v) := by
  unfold withParentMut
  rw [normalizePath_eq, h]
  rfl

/-- The root of a mounted filesystem has no parent in it. -/
theorem withParentMut_root (h : canonicalPath path = .ok cs)
    (hroute : v.route (joinPath cs) = (k, joinPath []))
    (op : F → Nat → String → Except VfsError α × F) :
    v.withParentMut path op = (.error .rootImmutable, v) := by
  unfold withParentMut
  rw [normalizePath_eq, h]
  simp only [Except.map, hroute]
  rw [resolveParent_root]

theorem withParentMut_routed {name : String} (h : canonicalPath path = .ok cs)
    (hroute : v.route (joinPath cs) = (k, joinPath (rel ++ [name])))
    (hrel : Canonical (rel ++ [name])) (op : F → Nat → String → Except VfsError α × F) :
    v.withParentMut path op =
      match resolveDir (getElem v.mounts k k.isLt).filesystem rel with
      | .error e => (.error e, v)
      | .ok parent => v.onMount k fun filesystem => op filesystem parent name := by
  unfold withParentMut
  rw [normalizePath_eq, h]
  simp only [Except.map, hroute]
  rw [resolveParent_joinPath _ hrel]
  cases resolveDir v.mounts[k].filesystem rel <;> rfl

end Frame

/-! ## One filesystem -/

section Single

variable [FileSystem F] {fs : F} {path : String}

omit [FileSystem F] in
/-- A path belongs to the root filesystem, as it is. -/
theorem route_new (fs : F) (path : String) :
    (Vfs.new fs).route path = (⟨0, Nat.zero_lt_one⟩, path) := rfl

theorem withInode_new (h : canonicalPath path = .ok cs) (op : F → Nat → Except VfsError α) :
    (Vfs.new fs).withInode path op = resolve fs cs >>= op fs :=
  withInode_routed h (route_new fs _) (canonicalPath_canonical h) op

theorem withInodeMut_new (h : canonicalPath path = .ok cs) (op : F → Nat → Except VfsError α × F) :
    (Vfs.new fs).withInodeMut path op =
      match resolve fs cs with
      | .error e => (.error e, Vfs.new fs)
      | .ok inode => ((op fs inode).1, Vfs.new (op fs inode).2) := by
  rw [withInodeMut_routed h (route_new fs _) (canonicalPath_canonical h)]
  rfl

theorem withParentMut_new_root (h : canonicalPath path = .ok [])
    (op : F → Nat → String → Except VfsError α × F) :
    (Vfs.new fs).withParentMut path op = (.error .rootImmutable, Vfs.new fs) :=
  withParentMut_root h (route_new fs _) op

theorem withParentMut_new {name : String} (h : canonicalPath path = .ok (cs ++ [name]))
    (op : F → Nat → String → Except VfsError α × F) :
    (Vfs.new fs).withParentMut path op =
      match resolveDir fs cs with
      | .error e => (.error e, Vfs.new fs)
      | .ok parent => ((op fs parent name).1, Vfs.new (op fs parent name).2) := by
  rw [withParentMut_routed h (route_new fs _) (canonicalPath_canonical h)]
  rfl

end Single

end Vfs

end GenericKernel.VfsCore
