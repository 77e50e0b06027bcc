import GenericKernel.Vfs.Backend
import GenericKernel.Vfs.Mounts
import GenericKernel.Vfs.Normalize
import GenericKernel.Vfs.SameNamespace

/-!
# Mount points stay

Nothing in `remove` mentions mounts. A mounted-over directory is safe because a path that leads to
it is routed to the filesystem mounted there, and because the directories above it are not empty.

* `Touches` — a call changes one filesystem, below a path that no other mount lies on.
* `Pinned` — a directory under a mount point, in the filesystem that held it when it was covered;
  `Pinned.touched`, `Pinned.mounted` — calls and further mounts keep it.
* `mountPoints_persist` — so it is there after every run, and `remove` refuses it and the
  directories above it, unless a request wipes the inode table of the disk filesystem.
-/

namespace GenericKernel.VfsCore

open GenericKernel.Lib

section Directories

variable {F : Type} [FileSystem F]

def HasDirectory (fs : F) (q : List String) : Prop :=
  ∃ m, pathMap fs q = some m ∧ m.kind = .directory

/-- The directories other than `target` are still there. -/
def KeepsOthers (fs fs' : F) (target : List String) : Prop :=
  ∀ q, q ≠ target → HasDirectory fs q → HasDirectory fs' q

theorem KeepsOthers.refl (fs : F) (target : List String) : KeepsOthers fs fs target :=
  fun _ _ h => h

theorem KeepsOthers.of_update {fs fs' : F} {target : List String} {x : Option Metadata}
    (h : pathMap fs' = Function.update (pathMap fs) target x) : KeepsOthers fs fs' target := by
  rintro q hq ⟨m, hm, hkind⟩
  refine ⟨m, ?_, hkind⟩
  rw [h, Function.update_of_ne hq, hm]

/-- Nodes that keep their names and kinds keep the directories. -/
theorem KeepsOthers.of_sameNames {fs fs' : F} (h : SameNames fs fs') (target : List String) :
    KeepsOthers fs fs' target := by
  rintro q - ⟨m, hm, hkind⟩
  obtain ⟨i, hwalk, hi⟩ := Option.bind_eq_some_iff.mp hm
  have hinfo := h.kind i
  rw [hi, Option.map_some, Option.map_eq_some_iff] at hinfo
  obtain ⟨m', hm', hkind'⟩ := hinfo
  have hwalk' : (graph fs').walk (FileSystem.rootInode fs') q = some i := by
    rw [h.root, NodeGraph.walk_congr h.child, hwalk]
  exact ⟨m', (NodeGraph.entry_of_walk hwalk').trans hm', hkind'.trans hkind⟩

end Directories

/-! ## Runs with mounts -/

inductive Event (F : Type) where
  | call (c : Call)
  | mount (path : String) (filesystem : F)

/-- What was asked for, whatever the reply. -/
def Vfs.event {F : Type} [FileSystem F] (v : Vfs F) : Event F → Vfs F
  | .call c => (v.call c).2
  | .mount path filesystem => (v.mount path filesystem).2

/-- Arguments of the source's types, and requests that the filesystem they reach can store. -/
def Call.Within {F : Type} [FileSystem F] (Storable : F → Nat → Nat → Prop) (v : Vfs F) :
    Call → Prop
  | .write path offset data => offset < wordSize ∧ data.length < 2 ^ 63 ∧
      ∀ fs inode, v.withInode path (fun fs inode => .ok (fs, inode)) = .ok (fs, inode) →
        Storable fs inode (offset + data.length)
  | .truncate path len => len < wordSize ∧
      ∀ fs inode, v.withInode path (fun fs inode => .ok (fs, inode)) = .ok (fs, inode) →
        Storable fs inode len
  | _ => True

/-- The directory that `path` named in `v`, in the filesystem that held it, is there in `w` with all
the directories above it. `remove` refuses `path`, and every path that leads to one of these
directories, and changes nothing. -/
def KeepsMountPoint {F : Type} [FileSystem F] (v w : Vfs F) (path : String) : Prop :=
  ∃ cs rel mount, canonicalPath path = .ok cs ∧ Canonical rel ∧
    (v.route (joinPath cs)).2 = joinPath rel ∧
    w.mounts[(v.route (joinPath cs)).1.val]? = some mount ∧
    (∀ q, q <+: rel → ∃ i, resolve mount.filesystem q = .ok i ∧ IsDirectory mount.filesystem i) ∧
    (∀ text, canonicalPath text = .ok cs → ∃ e, w.remove text = (.error e, w)) ∧
    ∀ text ds q, canonicalPath text = .ok ds → Canonical q →
      (w.route (joinPath ds)).1.val = (v.route (joinPath cs)).1.val →
      (w.route (joinPath ds)).2 = joinPath q → q <+: rel → ∃ e, w.remove text = (.error e, w)

namespace Vfs

section Lawful

variable {F α : Type} [FileSystem F] {Inv : F → Prop} {through : F → VfsError}
  {Room : F → String → Prop} {Storable : F → Nat → Nat → Prop}
  {v v' : Vfs F} {places : List (List String)}

/-- A mount table over sound filesystems. -/
structure Healthy (Inv : F → Prop) (v : Vfs F) (places : List (List String)) : Prop where
  placed : Placed v places
  inv : ∀ mount ∈ v.mounts, Inv mount.filesystem

/-- One filesystem is replaced, and keeps its directories apart from the one that the path `rel`
leads to; no other mount lies on that path. -/
inductive Touches (Inv : F → Prop) (v : Vfs F) (places : List (List String)) : Vfs F → Prop
  | nothing : Touches Inv v places v
  | filesystem {v' : Vfs F} {k : Fin v.mounts.length} {place rel : List String} {fs' : F} :
      places[k.val]? = some place →
      (∀ place' ∈ places, place' <+: place ++ rel → place' <+: place) →
      Inv fs' → KeepsOthers (getElem v.mounts k k.isLt).filesystem fs' rel →
      v'.mounts = v.mounts.set k.val { getElem v.mounts k k.isLt with filesystem := fs' } →
      Touches Inv v places v'

omit [FileSystem F] in
theorem Healthy.inv_at (h : Healthy Inv v places) (k : Fin v.mounts.length) :
    Inv (getElem v.mounts k k.isLt).filesystem :=
  h.inv _ (List.getElem_mem k.isLt)

theorem Routes.touches {cs place rel : List String} {k : Fin v.mounts.length}
    (hroute : Routes v places cs k place rel) {op : F → α × F}
    (hinv : Inv (op (getElem v.mounts k k.isLt).filesystem).2)
    (hkeeps : KeepsOthers (getElem v.mounts k k.isLt).filesystem
      (op (getElem v.mounts k k.isLt).filesystem).2 rel) :
    Touches Inv v places (v.onMount k op).2 :=
  .filesystem hroute.mounted (hroute.split ▸ hroute.longest) hinv hkeeps rfl

variable (law : Lawful F Inv through Room Storable)

include law in
/-- A call that works on a name in a directory. -/
theorem withParentMut_touches (h : Healthy Inv v places) (path : String)
    {op : F → Nat → String → Except VfsError α × F}
    (hop : ∀ fs m q n, Inv fs → ValidName n → pathMap fs q = some m → m.kind = .directory →
      Inv (op fs m.inode n).2 ∧ KeepsOthers fs (op fs m.inode n).2 (q ++ [n])) :
    Touches Inv v places (v.withParentMut path op).2 := by
  cases hcs : canonicalPath path with
  | error e =>
    rw [withParentMut_of_error hcs]
    exact .nothing
  | ok cs =>
    have hcanonical := canonicalPath_canonical hcs
    obtain ⟨k, place, rel, hroute⟩ := route_joinPath h.placed hcanonical
    have hrel := hroute.rel_canonical hcanonical
    rcases List.eq_nil_or_concat rel with rfl | ⟨q, n, rfl⟩
    · rw [withParentMut_root hcs hroute.route]
      exact .nothing
    · rw [List.concat_eq_append] at hroute hrel
      obtain ⟨hq, hn⟩ := Canonical.append.mp hrel
      have hinv := h.inv_at k
      have hresolve := law.resolveDir_eq hinv hq
      rw [withParentMut_routed hcs hroute.route hrel, hresolve]
      cases hm : pathMap v.mounts[k].filesystem q with
      | none => exact .nothing
      | some m =>
        dsimp only
        by_cases hdir : m.kind = .directory
        · rw [if_pos hdir]
          obtain ⟨hinv', hkeeps⟩ := hop _ m q n hinv (hn n (List.mem_singleton.mpr rfl)) hm hdir
          exact hroute.touches hinv' hkeeps
        · rw [if_neg hdir]
          exact .nothing

/-- A call that works on the contents of a file. -/
theorem withInodeMut_touches (h : Healthy Inv v places) (path : String)
    {op : F → Nat → Except VfsError α × F}
    (hop : ∀ fs inode, v.withInode path (fun fs inode => .ok (fs, inode)) = .ok (fs, inode) →
      Inv fs → Inv (op fs inode).2 ∧ SameNames fs (op fs inode).2) :
    Touches Inv v places (v.withInodeMut path op).2 := by
  cases hcs : canonicalPath path with
  | error e =>
    rw [withInodeMut_of_error hcs]
    exact .nothing
  | ok cs =>
    have hcanonical := canonicalPath_canonical hcs
    obtain ⟨k, place, rel, hroute⟩ := route_joinPath h.placed hcanonical
    have hrel := hroute.rel_canonical hcanonical
    have hreached := withInode_routed hcs hroute.route hrel
      fun fs inode => (.ok (fs, inode) : Except VfsError (F × Nat))
    rw [withInodeMut_routed hcs hroute.route hrel]
    cases hresolve : resolve v.mounts[k].filesystem rel with
    | error e => exact .nothing
    | ok inode =>
      rw [hresolve] at hreached
      obtain ⟨hinv, hnames⟩ := hop _ inode hreached (h.inv_at k)
      exact hroute.touches hinv (.of_sameNames hnames rel)

include law

theorem creates_keeps {fs : F} {m : Metadata} {q : List String} {n : String} {kind : NodeKind}
    {r : Except VfsError Nat × F} (hinv : Inv fs) (hm : pathMap fs q = some m)
    (h : Creates Inv Room fs m.inode n kind r) :
    Inv (created r).2 ∧ KeepsOthers fs (created r).2 (q ++ [n]) := by
  cases h with
  | taken => exact ⟨hinv, .refl fs _⟩
  | refused => exact ⟨hinv, .refl fs _⟩
  | linked hfree hdead _ hinv' hroot hgraph =>
    exact ⟨hinv', .of_update (law.pathMap_link hinv hm hfree hdead hroot hgraph).1⟩

theorem removes_keeps {fs : F} {m : Metadata} {q : List String} {n : String}
    {r : Except VfsError Unit × F} (hinv : Inv fs) (hm : pathMap fs q = some m)
    (h : Removes Inv fs m.inode n r) : Inv r.2 ∧ KeepsOthers fs r.2 (q ++ [n]) := by
  cases h with
  | missing => exact ⟨hinv, .refl fs _⟩
  | notEmpty => exact ⟨hinv, .refl fs _⟩
  | unlinked hi hleaf hinv' hroot hgraph =>
    exact ⟨hinv', .of_update (law.pathMap_unlink hinv hm hi hleaf hroot hgraph)⟩

/-- **What a call does to the mounted filesystems.** -/
theorem call_touches (h : Healthy Inv v places) {c : Call} (hc : c.Within Storable v) :
    Touches Inv v places (v.call c).2 := by
  cases c with
  | createFile path =>
    show Touches Inv v places (v.withParentMut path fun fs parent n =>
      created (FileSystem.createFile fs parent n)).2
    exact withParentMut_touches law h path fun fs m q n hinv hn hm hdir =>
      creates_keeps law hinv hm (law.createFile hinv hn (law.walk_of_pathMap hm).2 hdir)
  | createDir path =>
    show Touches Inv v places (v.withParentMut path fun fs parent n =>
      created (FileSystem.createDir fs parent n)).2
    exact withParentMut_touches law h path fun fs m q n hinv hn hm hdir =>
      creates_keeps law hinv hm (law.createDir hinv hn (law.walk_of_pathMap hm).2 hdir)
  | remove path =>
    exact withParentMut_touches law h path fun fs m q n hinv hn hm hdir =>
      removes_keeps law hinv hm (law.remove hinv hn (law.walk_of_pathMap hm).2 hdir)
  | write path offset data =>
    obtain ⟨hoffset, hdata, hstop⟩ := hc
    exact withInodeMut_touches h path fun fs inode hreached hinv =>
      law.write hinv hoffset hdata (hstop fs inode hreached)
  | truncate path len =>
    obtain ⟨hlen, hstop⟩ := hc
    exact withInodeMut_touches h path fun fs inode hreached hinv =>
      law.truncate hinv hlen (hstop fs inode hreached)
  | read path offset bufferLen => exact .nothing
  | readAll path => exact .nothing
  | readDir path => exact .nothing
  | metadata path => exact .nothing

omit law

/-! ## The invariant -/

/-- A directory under a mount point: `rel` in the filesystem `host`, which is mounted at `place`. -/
structure Pinned (v : Vfs F) (places : List (List String)) (host : Nat) (place rel : List String) :
    Prop where
  placed : places[host]? = some place
  covered : place ++ rel ∈ places
  below : rel ≠ []
  directory : ∃ mount, v.mounts[host]? = some mount ∧ HasDirectory mount.filesystem rel

theorem Healthy.touched (h : Healthy Inv v places) (ht : Touches Inv v places v') :
    Healthy Inv v' places := by
  cases ht with
  | nothing => exact h
  | @filesystem _ k place rel fs' _ _ hinv _ hmounts =>
    refine ⟨h.placed.of_paths ?_, fun mount hmount => ?_⟩
    · rw [hmounts]
      exact onMount_paths v k fun _ => ((), fs')
    · rw [hmounts] at hmount
      rcases List.mem_or_eq_of_mem_set hmount with hold | rfl
      · exact h.inv mount hold
      · exact hinv

/-- Routing by the longest prefix keeps calls off the directory under a mount. -/
theorem Pinned.touched {host : Nat} {place rel : List String} (h : Pinned v places host place rel)
    (ht : Touches Inv v places v') : Pinned v' places host place rel := by
  refine ⟨h.placed, h.covered, h.below, ?_⟩
  obtain ⟨mount, hmount, hdir⟩ := h.directory
  cases ht with
  | nothing => exact ⟨mount, hmount, hdir⟩
  | @filesystem _ k place' rel' fs' hplace hlongest _ hkeeps hmounts =>
    rw [hmounts]
    by_cases hk : k.val = host
    · subst hk
      obtain rfl := Option.some.inj (hplace.symm.trans h.placed)
      rw [List.getElem?_eq_getElem k.isLt] at hmount
      obtain rfl := Option.some.inj hmount
      have hne : rel ≠ rel' := by
        rintro rfl
        have hlength := (hlongest _ h.covered (List.prefix_refl _)).length_le
        rw [List.length_append] at hlength
        exact h.below (List.length_eq_zero_iff.mp (by omega))
      exact ⟨_, List.getElem?_set_self k.isLt, hkeeps rel hne hdir⟩
    · exact ⟨mount, by rw [List.getElem?_set_ne hk, hmount], hdir⟩

theorem Pinned.mounted {host : Nat} {place rel cs : List String} {path : String} {fs : F}
    (h : Pinned v places host place rel) (hmounts : v'.mounts = v.mounts ++ [⟨path, fs⟩]) :
    Pinned v' (places ++ [cs]) host place rel := by
  obtain ⟨mount, hmount, hdir⟩ := h.directory
  have hlt := (List.getElem?_eq_some_iff.mp h.placed).1
  have hlt' := (List.getElem?_eq_some_iff.mp hmount).1
  refine ⟨?_, List.mem_append_left _ h.covered, h.below, mount, ?_, hdir⟩
  · rw [List.getElem?_append_left hlt, h.placed]
  · rw [hmounts, List.getElem?_append_left hlt', hmount]

omit [FileSystem F] in
theorem Healthy.mounted {fs : F} (h : Healthy Inv v places) (hfs : Inv fs)
    {cs : List String} (hcs : Canonical cs) (hnew : ∀ mount ∈ v.mounts, mount.path ≠ joinPath cs)
    (hmounts : v'.mounts = v.mounts ++ [⟨joinPath cs, fs⟩]) : Healthy Inv v' (places ++ [cs]) := by
  refine ⟨h.placed.append hcs hnew hmounts, fun mount hmount => ?_⟩
  rw [hmounts] at hmount
  rcases List.mem_append.mp hmount with hold | hmount
  · exact h.inv mount hold
  · rw [List.mem_singleton.mp hmount]
    exact hfs

include law

/-- A mount pins the directory it covers. -/
theorem Pinned.of_mount {path : String} {fs : F} (h : Healthy Inv v places) (hfs : Inv fs)
    (hmount : v.mount path fs = (.ok (), v')) :
    ∃ cs k place rel, canonicalPath path = .ok cs ∧ Routes v places cs k place rel ∧
      Healthy Inv v' (places ++ [cs]) ∧ Pinned v' (places ++ [cs]) k.val place rel := by
  obtain ⟨cs, m, hcs, hne, hnew, hm, hkind, hmounts⟩ := mount_ok hmount
  have hcanonical := canonicalPath_canonical hcs
  obtain ⟨k, place, rel, hroute⟩ := route_joinPath h.placed hcanonical
  have hrel := hroute.rel_canonical hcanonical
  refine ⟨cs, k, place, rel, hcs, hroute, h.mounted hfs hcanonical hnew hmounts, ?_, ?_, ?_, ?_⟩
  · rw [List.getElem?_append_left (List.getElem?_eq_some_iff.mp hroute.mounted).1, hroute.mounted]
  · rw [hroute.split]
    exact List.mem_append_right _ (List.mem_singleton.mpr rfl)
  · -- otherwise the path is that of the mount it belongs to
    rintro rfl
    obtain ⟨place', hplace', hpath⟩ := h.placed.place_at k
    obtain rfl := Option.some.inj (hroute.mounted.symm.trans hplace')
    have hsplit := hroute.split
    rw [List.append_nil] at hsplit
    exact hnew _ (List.getElem_mem k.isLt) (hpath.trans (by rw [hsplit]))
  · refine ⟨v.mounts[k], ?_, ?_⟩
    · rw [hmounts, List.getElem?_append_left k.isLt, List.getElem?_eq_getElem k.isLt]
      rfl
    · unfold Vfs.metadata at hm
      rw [withInode_routed (canonicalPath_joinPath hcs) hroute.route hrel,
        law.resolve_eq (h.inv_at k) hrel] at hm
      cases hx : pathMap v.mounts[k].filesystem rel with
      | none =>
        rw [hx] at hm
        cases hm
      | some x =>
        rw [hx] at hm
        have hx' : FileSystem.metadata v.mounts[k].filesystem x.inode = .ok m := hm
        rw [(law.walk_of_pathMap hx).2] at hx'
        exact ⟨x, hx, Except.ok.inj hx' ▸ hkind⟩

/-! ## Removing -/

omit law in
omit [FileSystem F] in
/-- An operation that leaves the filesystem as it is leaves the table as it is. -/
theorem onMount_of_same {k : Fin v.mounts.length} {op : F → α × F}
    (h : (op (getElem v.mounts k k.isLt).filesystem).2 = (getElem v.mounts k k.isLt).filesystem) :
    v.onMount k op = ((op (getElem v.mounts k k.isLt).filesystem).1, v) := by
  unfold onMount
  simp only [h]
  congr
  exact List.set_getElem_self k.isLt

variable {host : Nat} {place rel : List String} {text : String}

omit law in
/-- The path of a mount leads to the root of what is mounted there. -/
theorem Pinned.remove_point (h : Healthy Inv v places) (hpin : Pinned v places host place rel)
    (htext : canonicalPath text = .ok (place ++ rel)) :
    v.remove text = (.error .rootImmutable, v) := by
  obtain ⟨k, place', rel', hroute⟩ := route_joinPath h.placed (canonicalPath_canonical htext)
  have hle := hroute.longest _ hpin.covered (List.prefix_refl _)
  have hnil : rel' = [] := by
    have hlength := hle.length_le
    rw [← hroute.split, List.length_append] at hlength
    exact List.length_eq_zero_iff.mp (by omega)
  subst hnil
  exact withParentMut_root htext hroute.route _

/-- The directories above have an entry. -/
theorem Pinned.remove_above (h : Healthy Inv v places) (hpin : Pinned v places host place rel)
    {ds q : List String} (htext : canonicalPath text = .ok ds) {k : Fin v.mounts.length}
    {place' : List String} (hroute : Routes v places ds k place' q) (hk : k.val = host)
    (hq : q <+: rel) : ∃ e, v.remove text = (.error e, v) := by
  have hcanonical := hroute.rel_canonical (canonicalPath_canonical htext)
  subst hk
  obtain rfl := Option.some.inj (hroute.mounted.symm.trans hpin.placed)
  obtain ⟨mount, hmount, m, hm, -⟩ := hpin.directory
  rw [List.getElem?_eq_getElem k.isLt] at hmount
  obtain rfl := Option.some.inj hmount
  rcases List.eq_nil_or_concat q with rfl | ⟨q, n, rfl⟩
  · exact ⟨_, withParentMut_root htext hroute.route _⟩
  rw [List.concat_eq_append] at hroute hcanonical hq
  obtain ⟨rest, rfl⟩ := hq
  cases rest with
  | nil =>
    -- the path would be that of the mount
    rw [List.append_nil] at hpin
    have hlength := (hroute.longest _ hpin.covered (by rw [hroute.split])).length_le
    simp at hlength
  | cons s rest =>
    have hinv := h.inv_at k
    have htree := law.tree hinv
    have hentry : pathMap v.mounts[k].filesystem (q ++ [n] ++ [s] ++ rest) ≠ none := by
      rw [List.append_assoc _ [s]]
      exact Option.ne_none_iff_exists'.mpr ⟨m, hm⟩
    have hbelow := htree.entry_of_append hentry
    have hnode := htree.entry_of_append hbelow
    obtain ⟨parent, hparent, hdir⟩ := law.directory_above hinv (List.cons_ne_nil n []) hnode
    obtain ⟨hq, hn⟩ := Canonical.append.mp hcanonical
    have hresolve := law.resolveDir_eq hinv hq
    rw [hparent] at hresolve
    dsimp only at hresolve
    rw [if_pos hdir] at hresolve
    unfold remove
    rw [withParentMut_routed htext hroute.route hcanonical, hresolve]
    have hremoves := law.remove hinv (hn n (List.mem_singleton.mpr rfl))
      (law.walk_of_pathMap hparent).2 hdir
    show ∃ e, v.onMount k (fun fs => FileSystem.remove fs parent.inode n) = (.error e, v)
    generalize hr : FileSystem.remove v.mounts[k].filesystem parent.inode n = r at hremoves
    cases hremoves with
    | missing hnone => exact absurd ((law.child_eq_none hinv hparent).mp hnone) hnode
    | notEmpty => exact ⟨.directoryNotEmpty, by rw [onMount_of_same (by rw [hr]), hr]⟩
    | unlinked hi hleaf =>
      exact absurd ((law.below_eq_none hinv hparent hi s).mp (hleaf s)) hbelow

/-- What a pinned directory amounts to. -/
theorem Pinned.keeps {w : Vfs F} {path : String} {cs : List String} {k : Fin v.mounts.length}
    {before : List (List String)} (hcs : canonicalPath path = .ok cs)
    (hroute : Routes v before cs k place rel) (h : Healthy Inv w places)
    (hpin : Pinned w places k.val place rel) : KeepsMountPoint v w path := by
  have hrel := hroute.rel_canonical (canonicalPath_canonical hcs)
  obtain ⟨mount, hmount, m, hm, hkind⟩ := hpin.directory
  have hinv := h.inv mount (List.mem_of_getElem? hmount)
  refine ⟨cs, rel, mount, hcs, hrel, ?_, ?_, fun q hq => ?_, fun text htext => ?_, ?_⟩
  · rw [hroute.route]
  · rw [hroute.route]
    exact hmount
  · obtain ⟨rest, rfl⟩ := hq
    have hdir : HasDirectory mount.filesystem q := by
      by_cases hnil : rest = []
      · rw [hnil, List.append_nil] at hm
        exact ⟨m, hm, hkind⟩
      · exact law.directory_above hinv hnil (Option.ne_none_iff_exists'.mpr ⟨m, hm⟩)
    obtain ⟨x, hx, hxkind⟩ := hdir
    have hresolve := law.resolve_eq hinv (Canonical.append.mp hrel).1
    rw [hx] at hresolve
    exact ⟨x.inode, hresolve, x, (law.walk_of_pathMap hx).2, hxkind⟩
  · rw [← hroute.split] at htext
    exact ⟨_, hpin.remove_point h htext⟩
  · intro text ds q htext hq hhost hleft hle
    have hds := canonicalPath_canonical htext
    obtain ⟨k', place', rel', hroute'⟩ := route_joinPath h.placed hds
    rw [hroute'.route] at hhost hleft
    rw [hroute.route] at hhost
    obtain rfl := joinPath_inj (hroute'.rel_canonical hds) hq hleft
    exact hpin.remove_above law h htext hroute' hhost hle

end Lawful

end Vfs

/-! ## Both backends -/

/-- Requests leave the tables of disk filesystems alone, and what is mounted is usable. -/
def Event.Admitted (v : Vfs Backend) : Event Backend → Prop
  | .call c => c.Within Backend.Spared v
  | .mount _ filesystem => filesystem.Used

namespace Vfs

variable {v : Vfs Backend} {places : List (List String)}

/-- **One step**: the table stays sound, and what is pinned stays pinned. -/
theorem event_keeps (h : Healthy Backend.Sound v places) {e : Event Backend} (he : e.Admitted v) :
    ∃ places', Healthy Backend.Sound (v.event e) places' ∧ ∀ host place rel,
      Pinned v places host place rel → Pinned (v.event e) places' host place rel := by
  cases e with
  | call c =>
    have htouches := call_touches Backend.lawful h he
    exact ⟨places, h.touched htouches, fun _ _ _ hpin => hpin.touched htouches⟩
  | mount path fs =>
    show ∃ places', Healthy Backend.Sound (v.mount path fs).2 places' ∧ ∀ host place rel,
      Pinned v places host place rel → Pinned (v.mount path fs).2 places' host place rel
    cases hmount : v.mount path fs with
    | mk result v' =>
      cases result with
      | error e =>
        rw [mount_error hmount]
        exact ⟨places, h, fun _ _ _ hpin => hpin⟩
      | ok u =>
        obtain ⟨cs, -, hcs, -, hnew, -, -, hmounts⟩ := mount_ok hmount
        exact ⟨_, h.mounted (Backend.Used.sound he) (canonicalPath_canonical hcs) hnew hmounts,
          fun _ _ _ hpin => hpin.mounted hmounts⟩

theorem healthy_new {root : Backend} (h : root.Used) :
    Healthy Backend.Sound (Vfs.new root) [[]] := by
  refine ⟨placed_new root, fun mount hmount => ?_⟩
  rw [List.mem_singleton.mp hmount]
  exact h.sound

/-- **A whole run.** -/
theorem run_keeps {events : List (Event Backend)} (h : Healthy Backend.Sound v places)
    (hevents : Each event (fun v e => e.Admitted v) v events) :
    ∃ places', Healthy Backend.Sound (events.foldl event v) places' ∧ ∀ host place rel,
      Pinned v places host place rel → Pinned (events.foldl event v) places' host place rel := by
  induction events generalizing v places with
  | nil => exact ⟨places, h, fun _ _ _ hpin => hpin⟩
  | cons e events ih =>
    obtain ⟨places', h', hstep⟩ := event_keeps h hevents.1
    obtain ⟨places'', h'', hrun⟩ := ih h' hevents.2
    exact ⟨places'', h'', fun host place rel hpin => hrun _ _ _ (hstep _ _ _ hpin)⟩

/-- **Mounted-over directories stay.** In a run of calls and mounts that starts with any root
filesystem, each directory on which a filesystem was mounted is there ever after in the filesystem
that held it, as are the directories above it, and cannot be removed. -/
theorem mountPoints_persist {root : Backend} (hroot : root.Used) {before after : List (Event Backend)}
    {path : String} {fs : Backend} (hfs : fs.Used)
    (hbefore : Each event (fun v e => e.Admitted v) (Vfs.new root) before)
    (hmount : ((before.foldl event (Vfs.new root)).mount path fs).1 = .ok ())
    (hafter : Each event (fun v e => e.Admitted v)
      ((before.foldl event (Vfs.new root)).mount path fs).2 after) :
    KeepsMountPoint (before.foldl event (Vfs.new root))
      (after.foldl event ((before.foldl event (Vfs.new root)).mount path fs).2) path := by
  obtain ⟨places, hhealthy, -⟩ := run_keeps (healthy_new hroot) hbefore
  obtain ⟨cs, k, place, rel, hcs, hroute, hstart, hpin⟩ := Pinned.of_mount Backend.lawful hhealthy
    hfs.sound (Prod.ext hmount rfl)
  obtain ⟨places', hend, hkeeps⟩ := run_keeps hstart hafter
  exact (hkeeps _ _ _ hpin).keeps Backend.lawful hcs hroute hend

/-- Removing a mount point, twice. -/
theorem mountPoints_persist_tmp : KeepsMountPoint
    ((Vfs.new (Backend.ram RamFs.new)).event (.call (.createDir "/tmp")))
    ([Event.call (.remove "/tmp"), .call (.remove "/tmp")].foldl event
      (((Vfs.new (Backend.ram RamFs.new)).event (.call (.createDir "/tmp"))).mount "/tmp"
        (.ram RamFs.new)).2) "/tmp" :=
  @mountPoints_persist _ .ram [.call (.createDir "/tmp")] _ _ _ .ram ⟨trivial, trivial⟩
    (by decide +kernel) ⟨trivial, trivial, trivial⟩

/-! ## A request that wipes the table -/

section Wiped

variable {F : Type} [FileSystem F] {Inv : F → Prop} {through : F → VfsError}
  {Room : F → String → Prop} {Storable : F → Nat → Nat → Prop}
  (law : Lawful F Inv through Room Storable) {fs fs' : F} {i : Nat} {path n : String}

include law

theorem metadata_root (hinv : Inv fs) : ∃ m, FileSystem.metadata fs (FileSystem.rootInode fs) = .ok m ∧
    m.inode = FileSystem.rootInode fs ∧ pathMap fs [] = some m := by
  have hwalk : (graph fs).walk (FileSystem.rootInode fs) [] = some (FileSystem.rootInode fs) := rfl
  exact law.metadata_of_walk hinv hwalk

/-- A new node in the root directory. -/
theorem creates_inRoot {kind : NodeKind} (hinv : Inv fs)
    (h : Creates Inv Room fs (FileSystem.rootInode fs) n kind (.ok i, fs')) :
    Inv fs' ∧ pathMap fs' = Function.update (pathMap fs) [n] (some ⟨i, kind, 0⟩) := by
  obtain ⟨m, hm, hinode, hmap⟩ := metadata_root law hinv
  rw [← hinode] at h
  cases h with
  | linked hfree hdead _ hinv' hroot hgraph =>
    exact ⟨hinv', (law.pathMap_link hinv hmap hfree hdead hroot hgraph).1⟩

theorem resolveDir_root (hinv : Inv fs) : resolveDir fs [] = .ok (FileSystem.rootInode fs) := by
  obtain ⟨m, hm, hdir⟩ := law.root hinv
  obtain ⟨m', hm', hinode, hmap⟩ := metadata_root law hinv
  obtain rfl := Except.ok.inj (hm.symm.trans hm')
  rw [law.resolveDir_eq hinv .nil, hmap, ← hinode]
  exact if_pos hdir

omit law in
theorem created_state (r : Except VfsError Nat × F) : (created r).2 = r.2 := by
  rcases r with ⟨_ | _, _⟩ <;> rfl

/-- A node made in the root directory by one of the two `create` functions. -/
theorem withParentMut_created {kind : NodeKind} {op : F → Nat → String → Except VfsError Nat × F}
    (hinv : Inv fs) (hcs : canonicalPath path = .ok ([] ++ [n]))
    (hop : ∀ {m : Metadata}, Inv fs → ValidName n →
      FileSystem.metadata fs (FileSystem.rootInode fs) = .ok m → m.kind = .directory →
      Creates Inv Room fs (FileSystem.rootInode fs) n kind (op fs (FileSystem.rootInode fs) n))
    (h : op fs (FileSystem.rootInode fs) n = (.ok i, fs')) :
    ((Vfs.new fs).withParentMut path fun fs parent n => created (op fs parent n)).2 = Vfs.new fs' ∧
      Inv fs' ∧ pathMap fs' = Function.update (pathMap fs) [n] (some ⟨i, kind, 0⟩) := by
  obtain ⟨m, hm, hdir⟩ := law.root hinv
  have hcreates := hop hinv (canonicalPath_canonical hcs n (by simp)) hm hdir
  rw [h] at hcreates
  refine ⟨?_, creates_inRoot law hinv hcreates⟩
  rw [withParentMut_new hcs, resolveDir_root law hinv]
  show Vfs.new (created (op fs (FileSystem.rootInode fs) n)).2 = _
  rw [created_state, h]

/-- Mounting on a directory of the root filesystem. -/
theorem mount_new {cs : List String} {m : Metadata} (hinv : Inv fs) (hcs : canonicalPath path = .ok cs)
    (hne : cs ≠ []) (hm : pathMap fs cs = some m) (hdir : m.kind = .directory) :
    ((Vfs.new fs).mount path fs').1 = .ok () := by
  have hcanonical := canonicalPath_canonical hcs
  have hmetadata : (Vfs.new fs).metadata (joinPath cs) = .ok m := by
    unfold Vfs.metadata
    rw [withInode_new (canonicalPath_joinPath hcs), law.resolve_eq hinv hcanonical, hm]
    exact (law.walk_of_pathMap hm).2
  have hroot : joinPath cs ≠ "/" := mt (joinPath_eq_slash hcanonical).mp hne
  unfold mount
  rw [normalizePath_eq, hcs]
  dsimp only [Except.map]
  rw [if_neg (by simp [Vfs.new, hroot, Ne.symm hroot]), hmetadata]
  dsimp only
  rw [if_neg (not_not.mpr hdir)]

/-- A file of the root filesystem, with other filesystems mounted elsewhere. -/
theorem event_truncate {v : Vfs F} {places : List (List String)} {cs : List String} {m : Metadata}
    (hplaced : Placed v places) (hother : ∀ place ∈ places, place <+: cs → place = [])
    (hroot : v.mounts[0]? = some ⟨"/", fs⟩) (hinv : Inv fs) (hcs : canonicalPath path = .ok cs)
    (hm : pathMap fs cs = some m) (len : Nat) :
    (v.event (.call (.truncate path len))).mounts[0]? =
      some ⟨"/", (FileSystem.truncate fs m.inode len).2⟩ := by
  have hcanonical := canonicalPath_canonical hcs
  obtain ⟨k, place, rel, hroute⟩ := route_joinPath hplaced hcanonical
  have hplace := hother place (List.mem_of_getElem? hroute.mounted) ⟨rel, hroute.split⟩
  obtain rfl : cs = rel := by rw [← hroute.split, hplace, List.nil_append]
  have hk : k.val = 0 := by
    by_contra hpos
    exact hplaced.place_ne_nil (Nat.pos_of_ne_zero hpos) hroute.mounted hplace
  have hmount : v.mounts[k] = ⟨"/", fs⟩ := by
    refine Option.some.inj ?_
    rw [Fin.getElem_fin, ← List.getElem?_eq_getElem k.isLt, hk, hroot]
  show (v.withInodeMut path fun fs inode => FileSystem.truncate fs inode len).2.mounts[0]? = _
  rw [withInodeMut_routed hcs hroute.route hcanonical, hmount, law.resolve_eq hinv hcanonical, hm]
  show (v.mounts.set k.val { v.mounts[k] with
    filesystem := (FileSystem.truncate v.mounts[k].filesystem m.inode len).2 })[0]? = _
  rw [hmount, hk, List.getElem?_set_self v.nonempty]

end Wiped

/-- A device of zeros has no directories. -/
theorem not_isDirectory_of_zeros {gs : GenericFs} (hlow : Fs.DATA_START ≤ gs.sectors)
    (hzero : ∀ s, s < Fs.DATA_START → gs.disk s = Fs.zeroSector) (inode : Nat) :
    ¬ IsDirectory gs inode := by
  have hT : Fs.Shows gs.disk fun _ => Fs.DiskInode.empty := fun i hi =>
    Fs.record_of_zero (hzero _ (Fs.inodeSector_bounds hi).2)
  rintro ⟨m, hm, -⟩
  exact (GenericFs.metadata_ok hlow hT hm).2.1 rfl

/-- A small device with a file and a directory. -/
def fileAndDirectory : Vfs Backend :=
  [Event.call (.createFile "/f"), .call (.createDir "/d")].foldl event
    (Vfs.new (.generic smallDevice))

theorem fileAndDirectory_spec : ∃ d T, fileAndDirectory = Vfs.new (.generic ⟨32, d⟩) ∧
    Fs.Consistent 32 d T ∧ T 2 = Fs.newEntry 1 "f" 1 ∧
    pathMap (Backend.generic ⟨32, d⟩) ["f"] = some ⟨2, .file, 0⟩ ∧
    pathMap (Backend.generic ⟨32, d⟩) ["d"] = some ⟨3, .directory, 0⟩ := by
  have hvalid : Fs.ValidName "d" := Fs.validateDiskName_eq_ok.mp rfl
  have hsound : (Backend.generic smallDevice).Sound := (Backend.Used.generic smallDevice_fresh).sound
  obtain ⟨hevalf, hC⟩ := Fs.createFile_zeros
  obtain ⟨hevald, hC'⟩ := Fs.create_oneFile (.inr rfl) (by decide)
    (Fs.nameText_newEntry 1 1 Fs.validName_f) hvalid (by decide) hC
  generalize Fs.oneFile = d₁ at hevalf hevald hC'
  generalize Fs.putRecord d₁ 3 (Fs.newEntry 1 "d" 2) = d₂ at hevald hC'
  have hfile : FileSystem.createFile (Backend.generic smallDevice) 1 "f" =
      (.ok 2, Backend.generic ⟨32, d₁⟩) :=
    congrArg (Backend.mapResult .generic) (@GenericFs.performs_eq smallDevice _ _ _ _ hevalf)
  have hdir : FileSystem.createDir (Backend.generic ⟨32, d₁⟩) 1 "d" =
      (.ok 3, Backend.generic ⟨32, d₂⟩) :=
    congrArg (Backend.mapResult .generic) (@GenericFs.performs_eq ⟨32, d₁⟩ _ _ _ _ hevald)
  obtain ⟨hfirst, hsound', hmap⟩ := @withParentMut_created _ _ _ _ _ _ Backend.lawful _ _ _ "/f" _ _ _
    hsound (by decide +kernel) Backend.lawful.createFile hfile
  obtain ⟨hsecond, -, hmap'⟩ := @withParentMut_created _ _ _ _ _ _ Backend.lawful _ _ _ "/d" _ _ _
    hsound' (by decide +kernel) Backend.lawful.createDir hdir
  refine ⟨d₂, _, ?_, hC', Fs.pair_two _ _, ?_, ?_⟩
  · have hfile : ∀ v : Vfs Backend, v.event (.call (.createFile "/f")) =
        (v.withParentMut "/f" fun fs p n => created (FileSystem.createFile fs p n)).2 := fun _ => rfl
    have hdir : ∀ v : Vfs Backend, v.event (.call (.createDir "/d")) =
        (v.withParentMut "/d" fun fs p n => created (FileSystem.createDir fs p n)).2 := fun _ => rfl
    unfold fileAndDirectory
    rw [List.foldl_cons, hfile, hfirst, List.foldl_cons, hdir, hsecond, List.foldl_nil]
  · rw [hmap', Function.update_of_ne (by decide), hmap, Function.update_self]
  · rw [hmap', Function.update_self]

/-- Extending `/f`, which has no sectors, fills the device with zeros from sector 0 on. -/
theorem truncate_wipes {d : Fs.Disk} {T : Fs.Table} (hC : Fs.Consistent 32 d T)
    (htwo : T 2 = Fs.newEntry 1 "f" 1) : ∃ d', (FileSystem.truncate (Backend.generic ⟨32, d⟩) 2
      (wordSize - 1)).2 = .generic ⟨32, d'⟩ ∧ ∀ s, s < Fs.DATA_START → d' s = Fs.zeroSector := by
  have hword : 2 ^ 63 < wordSize := lt_wordSize (by decide)
  have hsector : SECTOR_SIZE = 512 := rfl
  have hw : Fs.Wraps (.truncate (wordSize - 1)) := by
    have hstop : (Fs.Request.truncate (wordSize - 1)).stop = wordSize - 1 := Nat.add_zero _
    refine ⟨⟨show wordSize - 1 < wordSize by omega, Nat.two_pow_pos 63⟩, ?_, ?_⟩
    · rw [hstop]
      omega
    · rw [hstop]
      omega
  have hsectors : (T 2).sectors = 0 := by rw [htwo]; rfl
  have hfirst : (T 2).first = 0 := by rw [htwo]; rfl
  have hlen : (T 2).len.toNat = 0 := by rw [htwo]; rfl
  have heval := @Fs.Wraps.evaluate_past _ _ _ _ _ 32 hw hC
    Fs.two_mem (by rw [htwo]; rfl) (by rw [hfirst])
    (by rw [hsectors]; decide) (by show SECTOR_SIZE * 32 < wordSize - 1; omega)
  rw [hfirst, hlen] at heval
  refine ⟨_, congrArg (fun r => Backend.generic ⟨32, Prod.snd r⟩) heval, fun s hs => ?_⟩
  refine Vector.ext fun i hi => ?_
  have hstart : Fs.DATA_START = 17 := rfl
  rw [getElem_patch d (Nat.zero_le s) hi, if_pos (Nat.zero_le _),
    List.getElem?_replicate_of_lt (by rw [hsector] at hi ⊢; omega), Option.getD_some]
  exact (Vector.getElem_replicate _).symm

/-- The root directory goes with the rest of the table, and so does the directory `/d` under a
filesystem. -/
theorem mountPoint_lost : (Backend.generic smallDevice).Used ∧ (Backend.ram RamFs.new).Used ∧
    (fileAndDirectory.mount "/d" (.ram RamFs.new)).1 = .ok () ∧
    ¬ KeepsMountPoint fileAndDirectory ((fileAndDirectory.mount "/d" (.ram RamFs.new)).2.event
      (.call (.truncate "/f" (wordSize - 1)))) "/d" := by
  obtain ⟨d, T, heq, hC, htwo, hf, hd⟩ := fileAndDirectory_spec
  have hpathd : canonicalPath "/d" = .ok ["d"] := by decide +kernel
  have hpathf : canonicalPath "/f" = .ok ["f"] := by decide +kernel
  have hsound : (Backend.generic ⟨32, d⟩).Sound := ⟨T, hC⟩
  have hok := @mount_new _ _ _ _ _ _ Backend.lawful _ (.ram RamFs.new) _ _ _ hsound hpathd
    (List.cons_ne_nil _ _) hd rfl
  refine ⟨.generic smallDevice_fresh, .ram, heq ▸ hok, fun hkeeps => ?_⟩
  rw [heq] at hkeeps
  obtain ⟨cs, -, hcs, -, hnew, -, -, hmounts⟩ := mount_ok (Prod.ext hok rfl)
  obtain rfl := Except.ok.inj (hpathd.symm.trans hcs)
  have hplaced := (placed_new (Backend.generic ⟨32, d⟩)).append (canonicalPath_canonical hcs) hnew
    hmounts
  obtain ⟨d', hwiped, hzero⟩ := truncate_wipes hC htwo
  have hstate := event_truncate Backend.lawful hplaced (fun place hplace hle => ?_)
    (by rw [hmounts]; rfl) hsound hpathf hf (wordSize - 1)
  · rw [hwiped] at hstate
    obtain ⟨_, _, mount, _, _, _, hmount, hdirs, _⟩ := hkeeps
    have hindex : ∀ path, ((Vfs.new (Backend.generic ⟨32, d⟩)).route path).1.val = 0 := fun _ => rfl
    rw [hindex, hstate] at hmount
    obtain rfl := Option.some.inj hmount
    obtain ⟨i, -, hdir⟩ := hdirs [] List.nil_prefix
    exact @not_isDirectory_of_zeros ⟨32, d'⟩ (show 17 ≤ 32 by decide) hzero i hdir
  · -- `/f` does not lie below `/d`
    rcases List.mem_cons.mp hplace with hnil | hmem
    · exact hnil
    · rw [List.mem_singleton.mp hmem] at hle
      exact absurd hle (by decide)

end Vfs

end GenericKernel.VfsCore
