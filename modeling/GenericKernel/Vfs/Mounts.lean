import GenericKernel.Vfs.RamFs
import GenericKernel.Vfs.Routing

/-!
# The mount table

The operations of a `Vfs` change the mounted filesystems and never the mount paths; `mount` adds a
path that is canonical and new. So the table of every reachable `Vfs` is `Placed`, and `route` finds
the longest mount path that is a component-wise prefix.

* `Vfs.Reachable` — the states behind any sequence of mounts and calls.
* `Reachable.placed` — their mount paths.
* `route_longest` — what `route` returns, on strings.
-/

namespace GenericKernel.VfsCore

/-- An absolute path in normal form, whatever its length. -/
def IsCanonical (path : String) : Prop := ∃ cs, Canonical cs ∧ path = joinPath cs

/-- `path'` is `path` or lies below it, component by component. -/
def ComponentPrefix (path path' : String) : Prop :=
  ∃ cs ds, Canonical (cs ++ ds) ∧ path = joinPath cs ∧ path' = joinPath (cs ++ ds)

/-- A mount path with a path below it, where `/` adds nothing. -/
def appendPath (mountPath rel : String) : String :=
  if mountPath = "/" then rel else if rel = "/" then mountPath else mountPath ++ rel

theorem componentPrefix_joinPath {cs ds : List String} (hcs : Canonical cs) (hds : Canonical ds) :
    ComponentPrefix (joinPath cs) (joinPath ds) ↔ cs <+: ds := by
  constructor
  · rintro ⟨cs', rest, hcanonical, hcs', hds'⟩
    obtain rfl := joinPath_inj hcs (Canonical.append.mp hcanonical).1 hcs'
    obtain rfl := joinPath_inj hds hcanonical hds'
    exact List.prefix_append _ _
  · rintro ⟨rest, rfl⟩
    exact ⟨cs, rest, hds, rfl, rfl⟩

theorem appendPath_joinPath {cs ds : List String} (h : Canonical (cs ++ ds)) :
    appendPath (joinPath cs) (joinPath ds) = joinPath (cs ++ ds) := by
  obtain ⟨hcs, hds⟩ := Canonical.append.mp h
  unfold appendPath
  simp only [joinPath_eq_slash hcs, joinPath_eq_slash hds]
  by_cases hnil : cs = []
  · rw [if_pos hnil, hnil, List.nil_append]
  · rw [if_neg hnil]
    by_cases hnil' : ds = []
    · rw [if_pos hnil', hnil', List.append_nil]
    · rw [if_neg hnil', joinPath_append hnil hnil']

namespace Vfs

variable {F α : Type} {v : Vfs F} {places : List (List String)}

/-! ## Calls keep the mount paths -/

theorem onMount_paths (v : Vfs F) (k : Fin v.mounts.length) (op : F → α × F) :
    (v.onMount k op).2.mounts.map Mount.path = v.mounts.map Mount.path := by
  show (v.mounts.set k.val { v.mounts[k] with filesystem := _ }).map Mount.path = _
  rw [List.map_set]
  refine List.ext_getElem? fun i => ?_
  by_cases hi : i = k.val
  · subst hi
    rw [List.getElem?_set_self (by simp), List.getElem?_map, List.getElem?_eq_getElem k.isLt]
    rfl
  · rw [List.getElem?_set_ne (Ne.symm hi)]

variable [FileSystem F]

theorem withInodeMut_paths (v : Vfs F) (path : String) (op : F → Nat → Except VfsError α × F) :
    (v.withInodeMut path op).2.mounts.map Mount.path = v.mounts.map Mount.path := by
  unfold withInodeMut
  split
  · rfl
  · dsimp only
    split
    · rfl
    · exact onMount_paths v _ _

theorem withParentMut_paths (v : Vfs F) (path : String)
    (op : F → Nat → String → Except VfsError α × F) :
    (v.withParentMut path op).2.mounts.map Mount.path = v.mounts.map Mount.path := by
  unfold withParentMut
  split
  · rfl
  · dsimp only
    split
    · rfl
    · exact onMount_paths v _ _

theorem call_paths (v : Vfs F) (c : Call) :
    (v.call c).2.mounts.map Mount.path = v.mounts.map Mount.path := by
  cases c with
  | createFile path => exact withParentMut_paths v path _
  | createDir path => exact withParentMut_paths v path _
  | write path offset data => exact withInodeMut_paths v path _
  | truncate path len => exact withInodeMut_paths v path _
  | remove path => exact withParentMut_paths v path _
  | read path offset bufferLen => rfl
  | readAll path => rfl
  | readDir path => rfl
  | metadata path => rfl

/-! ## Mounting -/

/-- What a mount that succeeds has checked. -/
theorem mount_ok {path : String} {fs : F} {v' : Vfs F} (h : v.mount path fs = (.ok (), v')) :
    ∃ cs m, canonicalPath path = .ok cs ∧ cs ≠ [] ∧
      (∀ mount ∈ v.mounts, mount.path ≠ joinPath cs) ∧ v.metadata (joinPath cs) = .ok m ∧
      m.kind = .directory ∧ v'.mounts = v.mounts ++ [⟨joinPath cs, fs⟩] := by
  unfold mount at h
  rw [normalizePath_eq] at h
  cases hcs : canonicalPath path with
  | error e =>
    rw [hcs] at h
    cases h
  | ok cs =>
    rw [hcs] at h
    dsimp only [Except.map] at h
    split at h
    · cases h
    · rename_i hnew
      rw [not_or, List.any_eq_true] at hnew
      split at h
      · cases h
      · rename_i m hm
        split at h
        · cases h
        · rename_i hkind
          obtain rfl := (Prod.mk.inj h).2
          refine ⟨cs, m, rfl, fun hnil => ?_, fun mount hmount heq => ?_, hm, not_not.mp hkind, rfl⟩
          · exact hnew.1 (hnil ▸ joinPath_nil)
          · exact hnew.2 ⟨mount, hmount, by simpa using heq⟩

/-- A mount that fails changes nothing. -/
theorem mount_error {path : String} {fs : F} {v' : Vfs F} {e : VfsError}
    (h : v.mount path fs = (.error e, v')) : v' = v := by
  unfold mount at h
  split at h
  · exact (Prod.mk.inj h).2.symm
  · split at h
    · exact (Prod.mk.inj h).2.symm
    · split at h
      · exact (Prod.mk.inj h).2.symm
      · split at h
        · exact (Prod.mk.inj h).2.symm
        · exact nomatch (Prod.mk.inj h).1

omit [FileSystem F] in
theorem Placed.of_paths {v' : Vfs F} (h : Placed v places)
    (hpaths : v'.mounts.map Mount.path = v.mounts.map Mount.path) : Placed v' places :=
  ⟨hpaths.trans h.paths, h.canonical, h.root, h.nodup⟩

omit [FileSystem F] in
/-- One more canonical path that is not there yet. -/
theorem Placed.append {v' : Vfs F} {cs : List String} {fs : F} (h : Placed v places)
    (hcs : Canonical cs) (hnew : ∀ mount ∈ v.mounts, mount.path ≠ joinPath cs)
    (hmounts : v'.mounts = v.mounts ++ [⟨joinPath cs, fs⟩]) : Placed v' (places ++ [cs]) := by
  refine ⟨?_, ?_, ?_, ?_⟩
  · rw [hmounts, List.map_append, List.map_append, h.paths]
    rfl
  · intro place hplace
    rcases List.mem_append.mp hplace with hplace | hplace
    · exact h.canonical place hplace
    · rw [List.mem_singleton.mp hplace]
      exact hcs
  · obtain ⟨hlt, -⟩ := List.getElem?_eq_some_iff.mp h.root
    rw [List.getElem?_append_left hlt]
    exact h.root
  · refine List.nodup_append.mpr ⟨h.nodup, List.nodup_singleton cs, ?_⟩
    rintro place hplace other hother rfl
    have hmem : joinPath cs ∈ v.mounts.map Mount.path := by
      rw [h.paths, ← List.mem_singleton.mp hother]
      exact List.mem_map_of_mem hplace
    obtain ⟨mount, hmount, hpath⟩ := List.mem_map.mp hmem
    exact hnew mount hmount hpath

omit [FileSystem F] in
theorem placed_new (root : F) : Placed (Vfs.new root) [[]] :=
  ⟨by simp [Vfs.new, joinPath_nil], by simp [Canonical.nil], rfl, List.nodup_singleton _⟩

/-- The states reached from `new` by mounts and by other calls, whatever they return. -/
inductive Reachable : Vfs F → Prop
  | new (root : F) : Reachable (Vfs.new root)
  | mount {v : Vfs F} (path : String) (fs : F) : Reachable v → Reachable (v.mount path fs).2
  | call {v : Vfs F} (c : Call) : Reachable v → Reachable (v.call c).2

/-- **The mount table of a reachable `Vfs`.** -/
theorem Reachable.placed (h : Reachable v) : ∃ places, Placed v places := by
  induction h with
  | new root => exact ⟨_, placed_new root⟩
  | @mount v path fs _ ih =>
    obtain ⟨places, hplaced⟩ := ih
    cases hmount : v.mount path fs with
    | mk result v' =>
      cases result with
      | error e =>
        rw [mount_error hmount]
        exact ⟨places, hplaced⟩
      | ok u =>
        obtain ⟨cs, -, hcs, -, hnew, -, -, hmounts⟩ := mount_ok hmount
        exact ⟨_, hplaced.append (canonicalPath_canonical hcs) hnew hmounts⟩
  | call c _ ih =>
    obtain ⟨places, hplaced⟩ := ih
    exact ⟨places, hplaced.of_paths (call_paths _ c)⟩

omit [FileSystem F] in
/-- The mounts at prefixes of a path, as prefixes of its components. -/
theorem Placed.componentPrefix_iff (h : Placed v places) {cs place : List String}
    (hcs : Canonical cs) {k : Fin v.mounts.length} (hk : places[k.val]? = some place) :
    ComponentPrefix v.mounts[k].path (joinPath cs) ↔ place <+: cs := by
  obtain ⟨place', hplace', hpath⟩ := h.place_at k
  obtain rfl := Option.some.inj (hk.symm.trans hplace')
  rw [hpath]
  exact componentPrefix_joinPath (h.canonical_at hk) hcs

/-- **Mount routing.** In every reachable `Vfs` the mount paths are canonical and pairwise
different, and only the first is `/`; a canonical path is routed to the one mount whose path is the
longest component-wise prefix, with the canonical rest of the path. -/
theorem route_longest {v : Vfs F} (hv : v.Reachable) {path : String} (hpath : IsCanonical path) :
    (∀ k : Fin v.mounts.length, IsCanonical v.mounts[k].path) ∧
    (∀ j k : Fin v.mounts.length, v.mounts[j].path = v.mounts[k].path → j = k) ∧
    (∀ k : Fin v.mounts.length, v.mounts[k].path = "/" ↔ k.val = 0) ∧
    (∀ k : Fin v.mounts.length, (ComponentPrefix v.mounts[k].path path ∧
      ∀ j : Fin v.mounts.length, ComponentPrefix v.mounts[j].path path →
        ComponentPrefix v.mounts[j].path v.mounts[k].path) ↔ k = (v.route path).1) ∧
    IsCanonical (v.route path).2 ∧
    appendPath v.mounts[(v.route path).1].path (v.route path).2 = path := by
  obtain ⟨places, hplaced⟩ := hv.placed
  obtain ⟨cs, hcs, rfl⟩ := hpath
  obtain ⟨k, place, rel, hroute⟩ := route_joinPath hplaced hcs
  have hinjective : ∀ j k : Fin v.mounts.length, v.mounts[j].path = v.mounts[k].path → j = k := by
    intro j k heq
    obtain ⟨place, hj, hpathj⟩ := hplaced.place_at j
    obtain ⟨place', hk, hpathk⟩ := hplaced.place_at k
    rw [hpathj, hpathk] at heq
    obtain rfl := joinPath_inj (hplaced.canonical_at hj) (hplaced.canonical_at hk) heq
    obtain ⟨hjlt, hj⟩ := List.getElem?_eq_some_iff.mp hj
    obtain ⟨hklt, hk⟩ := List.getElem?_eq_some_iff.mp hk
    exact Fin.ext ((List.Nodup.getElem_inj_iff hplaced.nodup).mp (hj.trans hk.symm))
  have hrel := hroute.rel_canonical hcs
  obtain ⟨place', hplace', hpathk⟩ := hplaced.place_at k
  obtain rfl := Option.some.inj (hroute.mounted.symm.trans hplace')
  have hplace := hplaced.canonical_at hroute.mounted
  simp only [hroute.route]
  refine ⟨fun j => ?_, hinjective, fun j => ?_, fun j => ?_, ⟨rel, hrel, rfl⟩, ?_⟩
  · obtain ⟨place', hj, hpathj⟩ := hplaced.place_at j
    exact ⟨place', hplaced.canonical_at hj, hpathj⟩
  · obtain ⟨place', hj, hpathj⟩ := hplaced.place_at j
    rw [hpathj, joinPath_eq_slash (hplaced.canonical_at hj)]
    constructor
    · intro hnil
      by_contra hne
      exact hplaced.place_ne_nil (Nat.pos_of_ne_zero hne) hj hnil
    · intro hzero
      rw [hzero, hplaced.root] at hj
      exact (Option.some.inj hj).symm
  · -- a prefix that all the others are prefixes of is the longest one
    constructor
    · rintro ⟨hbelow, hlongest⟩
      obtain ⟨place', hj, hpathj⟩ := hplaced.place_at j
      have hle := hroute.longest place' (List.mem_of_getElem? hj)
        ((hplaced.componentPrefix_iff hcs hj).mp hbelow)
      have hge := hlongest k
        ((hplaced.componentPrefix_iff hcs hroute.mounted).mpr ⟨rel, hroute.split⟩)
      rw [hpathk, hpathj, componentPrefix_joinPath hplace (hplaced.canonical_at hj)] at hge
      refine hinjective j k ?_
      rw [hpathj, hpathk, hle.eq_of_length (le_antisymm hle.length_le hge.length_le)]
    · rintro rfl
      refine ⟨(hplaced.componentPrefix_iff hcs hroute.mounted).mpr ⟨rel, hroute.split⟩, fun i hi => ?_⟩
      obtain ⟨place', hi', hpathi⟩ := hplaced.place_at i
      rw [hpathi, hpathk, componentPrefix_joinPath (hplaced.canonical_at hi') hplace]
      exact hroute.longest place' (List.mem_of_getElem? hi')
        ((hplaced.componentPrefix_iff hcs hi').mp hi)
  · rw [hpathk, appendPath_joinPath (by rw [hroute.split]; exact hcs), hroute.split]

/-- A second filesystem at `/mnt` does not take `/mnt2`. -/
theorem route_longest_mnt : ∃ v : Vfs RamFs, v.Reachable ∧ v.mounts.length = 2 ∧
    appendPath v.mounts[(v.route "/mnt2").1].path (v.route "/mnt2").2 = "/mnt2" ∧
    (v.route "/mnt2").1.val = 0 := by
  refine ⟨(((Vfs.new RamFs.new).call (.createDir "/mnt")).2.mount "/mnt" RamFs.new).2,
    .mount _ _ (.call _ (.new _)), by decide +kernel, ?_, by decide +kernel⟩
  exact (route_longest (.mount _ _ (.call _ (.new _))) ⟨["mnt2"], by decide +kernel, by decide +kernel⟩).2.2.2.2.2

end Vfs

end GenericKernel.VfsCore
