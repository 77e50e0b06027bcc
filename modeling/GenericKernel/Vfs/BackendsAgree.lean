import Mathlib.Data.Finset.Card
import GenericKernel.Vfs.GenericFsLogic
import GenericKernel.Vfs.Listings
import GenericKernel.Vfs.RamFsRefines
import GenericKernel.Vfs.SameNamespace

/-!
# The two backends behind one interface

A `Vfs` over `RamFs` and a `Vfs` over `GenericFs` on a fresh device get the same calls of the
namespace.

* `InBounds` — names that fit into a record, and at most 63 nodes at a time.
* `backends_same_namespace` — the replies are the same up to the renaming of inodes, as long as the
  memory filesystem has inode numbers left and the path does not run through a file.
* `backends_differ` — neither condition can be dropped. A lookup below a file is `NotDirectory` in
  one backend and `NotFound` in the other; and numbers that one backend reuses the other runs out of.
-/

variable {gs : GenericFs} {fs : RamFs} {c : Call} {next : Nat}

namespace GenericKernel.VfsCore

open GenericKernel.Lib

section Bounds

variable {F : Type} [FileSystem F]

/-- At most `k` nodes below the root. -/
def HoldsAtMost (fs : F) (k : Nat) : Prop :=
  ∃ s : Finset (List String), s.card ≤ k ∧ ∀ path, path ≠ [] → pathMap fs path ≠ none → path ∈ s

/-- The path that a call resolves goes on below a file. -/
def ThroughFile (v : Vfs F) (c : Call) : Prop :=
  ∃ cs, canonicalPath c.path = .ok cs ∧ RunsThroughFile v.root (c.resolved cs)

/-- The calls considered: names of at most 63 bytes, and at most 63 nodes needed. -/
structure InBounds (v : Vfs F) (c : Call) : Prop where
  names : c.IsNamespace
  short : ∀ cs, canonicalPath c.path = .ok cs → ∀ n ∈ cs, (nameBytes n).length ≤ Fs.MAX_DISK_NAME
  nodes : HoldsAtMost (v.call c).2.root (Fs.INODE_COUNT - 1)

end Bounds

/-- The memory filesystem never issues a number twice, and has not come to the last one. -/
def NumbersLeft (v : Vfs RamFs) (c : Call) : Prop := c.Creates → v.root.nextInode + 1 < wordSize

/-! ## Room for a node -/

theorem SameTree.holdsAtMost {F G : Type} [FileSystem F] [FileSystem G] {fs : F} {gs : G}
    (h : SameTree fs gs) {k : Nat} (hk : HoldsAtMost fs k) : HoldsAtMost gs k := by
  obtain ⟨s, hcard, hs⟩ := hk
  refine ⟨s, hcard, fun path hne hentry => hs path hne ?_⟩
  rwa [Ne, h.eq_none]

/-- A node more than there were. -/
theorem HoldsAtMost.before {F : Type} [FileSystem F] {fs fs' : F} {k : Nat} {path : List String}
    {x : Metadata} (h : HoldsAtMost fs' (k + 1)) (hne : path ≠ []) (hnone : pathMap fs path = none)
    (hmap : pathMap fs' = Function.update (pathMap fs) path (some x)) : HoldsAtMost fs k := by
  obtain ⟨s, hcard, hs⟩ := h
  have hnew : path ∈ s := hs path hne (by rw [hmap, Function.update_self]; simp)
  refine ⟨s.erase path, by rw [Finset.card_erase_of_mem hnew]; omega, fun q hq hentry => ?_⟩
  have hqp : q ≠ path := by
    rintro rfl
    exact hentry hnone
  refine Finset.mem_erase.mpr ⟨hqp, hs q hq ?_⟩
  rwa [hmap, Function.update_of_ne hqp]

/-- Every live record has a path of its own, so a record is unused unless there are 63. -/
theorem GenericFs.exists_unused {T : Fs.Table} (hC : Fs.Consistent gs.sectors gs.disk T)
    (h : HoldsAtMost gs 62) : ∃ i ∈ Fs.inodeNumbers, (T i).kind = 0 := by
  by_contra hnone
  push Not at hnone
  obtain ⟨s, hcard, hs⟩ := h
  have hpath : ∀ i ∈ Fs.inodeNumbers, ∃ path, (graph gs).walk 1 path = some i := fun i hi =>
    walk_of_live hC (Fs.inTable_of_mem hi) (hnone i hi)
  choose! path hpath using hpath
  have hle : Fs.inodeNumbers.toFinset.card ≤ s.card := by
    refine Finset.card_le_card_of_injOn path (fun i hi => ?_) fun i hi j hj heq => ?_
    · have hi' : i ∈ Fs.inodeNumbers := List.mem_toFinset.mp hi
      refine hs _ (fun hnil => ?_) ?_
      · have hwalk := hpath i hi'
        rw [hnil] at hwalk
        have hone : 1 = i := Option.some.inj hwalk
        have := (Fs.mem_inodeNumbers.mp hi').1
        omega
      · have hentry : pathMap gs (path i) = (graph gs).info i := NodeGraph.entry_of_walk (hpath i hi')
        rw [hentry, ← Option.isSome_iff_ne_none, info_isSome hC]
        exact ⟨Fs.inTable_of_mem hi', hnone i hi'⟩
    · have hi' := hpath i (List.mem_toFinset.mp hi)
      rw [heq, hpath j (List.mem_toFinset.mp hj)] at hi'
      exact (Option.some.inj hi').symm
  have hall : Fs.inodeNumbers.toFinset.card = 63 := by
    unfold Fs.inodeNumbers
    rw [List.toFinset_card_of_nodup List.nodup_range']
    exact List.length_range'
  omega

theorem validName_of_short {n : String} (hvalid : ValidName n)
    (hshort : (nameBytes n).length ≤ Fs.MAX_DISK_NAME) : Fs.ValidName n := by
  have hname : validateName n = .ok () := hvalid
  refine Fs.validateDiskName_eq_ok.mp ?_
  unfold validateName at hname
  unfold Fs.validateDiskName
  split at hname
  · cases hname
  · rename_i hgood
    rw [if_neg hgood, if_neg (Nat.not_lt.mpr hshort)]

/-! ## Runs -/

/-- Nothing but a root on either side. -/
theorem fresh_sameTree (h : gs.Fresh) : GenericFs.Sound gs ∧ SameTree RamFs.new gs := by
  obtain ⟨hword, d, hmount⟩ := h
  obtain ⟨hsize, hdisk⟩ := Fs.mount_formats hmount
  have hC := Fs.formatted_consistent hsize hword d
  rw [← hdisk] at hC
  refine ⟨⟨_, hC⟩, ⟨fun path => ?_⟩⟩
  rw [← RamFs.new_represents.metadataAt_eq]
  cases path with
  | nil =>
    have hin : Fs.InTable 1 := ⟨le_refl 1, by decide⟩
    have hroot : pathMap gs [] = (Fs.recordMetadata 1 (Fs.blankTable 1)).toOption :=
      GenericFs.info_of_inTable hC hin
    rw [hroot]
    rfl
  | cons n path =>
    have hchild : (graph gs).child 1 n = none := (GenericFs.child_eq_none hC).mpr fun i hi =>
      hi.live (Fs.blankTable_unused i hi.number)
    have hnone : pathMap gs (n :: path) = none := by
      show ((graph gs).walk 1 (n :: path)).bind _ = none
      rw [NodeGraph.walk, hchild]
      rfl
    rw [hnone]
    rfl

/-- One call within the bounds. -/
theorem inBounds_step (hfs : RamFs.Sound fs) (hgs : GenericFs.Sound gs) (h : SameTree fs gs)
    (hc : InBounds (Vfs.new fs) c) (hnumbers : NumbersLeft (Vfs.new fs) c) :
    ∃ fs' gs', Tallies RamFs.Sound GenericFs.Sound (ThroughFile (Vfs.new fs) c)
      ((Vfs.new fs).call c) ((Vfs.new gs).call c) fs' gs' := by
  refine namespace_step RamFs.lawful GenericFs.lawful hfs hgs h c hc.names fun hcreates q n hcs =>
    ⟨hnumbers hcreates, fun fs' x hstate hnone hmap => ?_⟩
  obtain ⟨T, hC⟩ := hgs
  have hvalid : ValidName n := canonicalPath_canonical hcs n (by simp)
  refine ⟨validName_of_short hvalid (hc.short _ hcs n (by simp)), T, hC.shows, ?_⟩
  have hnodes := hc.nodes
  rw [hstate] at hnodes
  have hbefore : HoldsAtMost fs 62 := HoldsAtMost.before hnodes (by simp) hnone hmap
  exact GenericFs.exists_unused hC (h.holdsAtMost hbefore)

/-- The two sides, next to each other. -/
def InStep (v : Vfs RamFs) (w : Vfs GenericFs) : Prop :=
  ∃ fs gs, v = Vfs.new fs ∧ w = Vfs.new gs ∧ RamFs.Sound fs ∧ GenericFs.Sound gs ∧ SameTree fs gs

/-- A run within the bounds keeps them in step. -/
theorem inStep_serve {v : Vfs RamFs} {w : Vfs GenericFs} (h : InStep v w) {calls : List Call}
    (hcalls : Each (fun v c => (Vfs.call v c).2) (fun v c => InBounds v c ∧ NumbersLeft v c) v calls) :
    InStep (serve Vfs.call v calls).2 (serve Vfs.call w calls).2 := by
  refine (Each.serve (Q := fun _ _ => True) (fun v w c hR hP => ⟨trivial, ?_⟩) h hcalls).2
  obtain ⟨fs, gs, rfl, rfl, hfs, hgs, hsame⟩ := hR
  obtain ⟨fs', gs', hstep⟩ := inBounds_step hfs hgs hsame hP.1 hP.2
  exact ⟨fs', gs', hstep.state, hstep.state', hstep.inv, hstep.inv', hstep.tree⟩

/-- **One namespace.** After any run within the bounds, a call within them gets the same reply from
both backends, up to a one-to-one renaming of inodes: inodes at the end of one path are taken for
each other. -/
theorem backends_same_namespace {gs : GenericFs} (hgs : gs.Fresh) (calls : List Call)
    (hcalls : Each (fun v c => (Vfs.call v c).2) (fun v c => InBounds v c ∧ NumbersLeft v c)
      (Vfs.new RamFs.new) calls) (c : Call) (hc : InBounds (afterCalls calls) c)
    (hnumbers : NumbersLeft (afterCalls calls) c) (hthrough : ¬ ThroughFile (afterCalls calls) c) :
    Relator.BiUnique (Twin ((afterCalls calls).call c).2.root
      ((serve Vfs.call (Vfs.new gs) calls).2.call c).2.root) ∧
    SameReply (Twin ((afterCalls calls).call c).2.root
      ((serve Vfs.call (Vfs.new gs) calls).2.call c).2.root)
      ((afterCalls calls).call c).1 ((serve Vfs.call (Vfs.new gs) calls).2.call c).1 := by
  obtain ⟨hsound, hsame⟩ := fresh_sameTree hgs
  obtain ⟨fs, gs', hv, hw, hfs, hgs', hsame'⟩ :=
    inStep_serve ⟨_, _, rfl, rfl, RamFs.new_sound, hsound, hsame⟩ hcalls
  have hv' : afterCalls calls = Vfs.new fs := hv
  rw [hv'] at hc hnumbers hthrough ⊢
  rw [hw]
  obtain ⟨fs₁, gs₁, hstep⟩ := inBounds_step hfs hgs' hsame' hc hnumbers
  rw [hstep.state, hstep.state']
  exact ⟨twin_biUnique RamFs.lawful GenericFs.lawful hstep.inv hstep.inv', hstep.reply hthrough⟩

/-! ## Where they differ -/

section Differ

theorem canonicalPath_fx : canonicalPath "/f/x" = .ok ["f", "x"] := by decide +kernel

theorem oneFile_below (next : Nat) :
    (oneFile next).call (.metadata "/f/x") = (.error .notDirectory, oneFile next) := by
  simp only [PathMap.call, canonicalPath_fx]
  rfl

/-- A map with at most `/f` in it. -/
def Small (m : PathMap) : Prop := ∀ path, path ≠ [] → m.entry path ≠ none → path = ["f"]

theorem emptyMap_small (next : Nat) : Small (emptyMap next) := fun path hne hentry =>
  absurd (show (emptyMap next).entry path = none from if_neg hne) hentry

theorem oneFile_small (next : Nat) : Small (oneFile next) := by
  intro path hne hentry
  by_contra hpath
  rw [oneFile_entry, if_neg hpath, if_neg hne] at hentry
  exact hentry rfl

theorem RamFs.Represents.inBounds {m : PathMap} (h : RamFs.Represents fs m) (hc : c.IsNamespace)
    (hshort : ∀ cs, canonicalPath c.path = .ok cs → ∀ n ∈ cs, n = "f" ∨ n = "x")
    (hsmall : Small (m.call c).2) : InBounds (Vfs.new fs) c := by
  refine ⟨hc, fun cs hcs n hn => ?_, ?_⟩
  · rcases hshort cs hcs n hn with rfl | rfl <;> decide
  · obtain ⟨fs', hstate, hfs'⟩ := (h.call_simulates c).state
    rw [hstate]
    refine ⟨{["f"]}, by decide, fun path hne hentry => Finset.mem_singleton.mpr ?_⟩
    refine hsmall path hne fun hnone => hentry ?_
    show pathMap fs' path = none
    rw [← hfs'.metadataAt_eq, PathMap.metadataAt, hnone]
    rfl

theorem short_f (hpath : c.path = "/f") :
    ∀ cs, canonicalPath c.path = .ok cs → ∀ n ∈ cs, n = "f" ∨ n = "x" := by
  intro cs hcs n hn
  rw [hpath, canonicalPath_f] at hcs
  obtain rfl := Except.ok.inj hcs
  exact .inl (List.mem_singleton.mp hn)

theorem create_inBounds (h : RamFs.Represents fs (emptyMap next)) :
    InBounds (Vfs.new fs) (.createFile "/f") := by
  refine h.inBounds trivial (short_f rfl) ?_
  by_cases hroom : next + 1 < wordSize
  · rw [emptyMap_create hroom]
    exact oneFile_small next
  · rw [emptyMap_exhausted (Nat.not_lt.mp hroom)]
    exact emptyMap_small next

theorem remove_inBounds (h : RamFs.Represents fs (oneFile next)) :
    InBounds (Vfs.new fs) (.remove "/f") := by
  refine h.inBounds trivial (short_f rfl) ?_
  rw [oneFile_remove]
  exact emptyMap_small _

theorem create_inside (h : RamFs.Represents fs (emptyMap next)) (hroom : next + 1 < wordSize) :
    InBounds (Vfs.new fs) (.createFile "/f") ∧ NumbersLeft (Vfs.new fs) (.createFile "/f") := by
  refine ⟨create_inBounds h, fun _ => ?_⟩
  show fs.nextInode + 1 < wordSize
  rw [← h.next]
  exact hroom

theorem remove_inside (h : RamFs.Represents fs (oneFile next)) :
    InBounds (Vfs.new fs) (.remove "/f") ∧ NumbersLeft (Vfs.new fs) (.remove "/f") :=
  ⟨remove_inBounds h, fun hc => hc.elim⟩

/-- Where a path has no entry, the disk filesystem answers `NotFound`. -/
theorem GenericFs.metadata_missing (hgs : GenericFs.Sound gs) {path : String} {cs : List String}
    (hcs : canonicalPath path = .ok cs) (hnone : pathMap gs cs = none) :
    ((Vfs.new gs).call (.metadata path)).1 = .error .notFound := by
  show ((Vfs.new gs).withInode path FileSystem.metadata).map _ = _
  rw [Vfs.withInode_new hcs, lawful.resolve_eq hgs (canonicalPath_canonical hcs), hnone]
  show Except.error (missError .notFound (pathMap gs) cs) = _
  unfold missError
  rw [ite_self]

/-- In an empty tree it makes a file. -/
theorem GenericFs.create_first (hgs : GenericFs.Sound gs) {m : Metadata}
    (hroot : pathMap gs [] = some m) (hdir : m.kind = .directory)
    (hnone : ∀ path, path ≠ [] → pathMap gs path = none) :
    ∃ x, ((Vfs.new gs).call (.createFile "/f")).1 = .ok x := by
  have hvalid : ValidName "f" := canonicalPath_canonical canonicalPath_f "f" (by simp)
  have hcs : canonicalPath "/f" = .ok ([] ++ ["f"]) := canonicalPath_f
  have hparent : resolveDir gs [] = .ok m.inode := by
    rw [lawful.resolveDir_eq hgs Canonical.nil, hroot]
    exact if_pos hdir
  have hcreates := lawful.createFile hgs hvalid (lawful.walk_of_pathMap hroot).2 hdir
  have hroom : Room gs "f" := by
    obtain ⟨T, hC⟩ := hgs
    refine ⟨Fs.validName_f, T, hC.shows, exists_unused hC ⟨∅, Nat.zero_le _, fun path hne hentry => ?_⟩⟩
    exact absurd (hnone path hne) hentry
  have hreply : ((Vfs.new gs).call (.createFile "/f")).1 =
      (Vfs.created (FileSystem.createFile gs m.inode "f")).1.map Reply.metadata := by
    show ((Vfs.new gs).withParentMut "/f" _).1.map _ = _
    rw [Vfs.withParentMut_new hcs, hparent]
  rw [hreply]
  generalize FileSystem.createFile gs m.inode "f" = result at hcreates ⊢
  cases hcreates with
  | taken hi =>
    have hfree := (lawful.child_eq_none hgs hroot).mpr (hnone ([] ++ ["f"]) (by simp))
    rw [hfree] at hi
    cases hi
  | refused _ hno => exact absurd hroom hno
  | @linked i gs' hfree hdead _ _ hrootInode hgraph =>
    obtain ⟨-, -, hnew⟩ := lawful.pathMap_link hgs hroot hfree hdead hrootInode hgraph
    show ∃ x, (FileSystem.metadata gs' i).map Reply.metadata = .ok x
    rw [hnew]
    exact ⟨_, rfl⟩

/-- The first calls, side by side. -/
theorem smallDevice_inStep {calls : List Call}
    (hcalls : Each (fun v c => (Vfs.call v c).2) (fun v c => InBounds v c ∧ NumbersLeft v c)
      (Vfs.new RamFs.new) calls) :
    InStep (afterCalls calls) (serve Vfs.call (Vfs.new smallDevice) calls).2 := by
  obtain ⟨hsound, hsame⟩ := fresh_sameTree smallDevice_fresh
  exact inStep_serve ⟨_, _, rfl, rfl, RamFs.new_sound, hsound, hsame⟩ hcalls

theorem afterCalls_oneFile :
    Each (fun v c => (Vfs.call v c).2) (fun v c => InBounds v c ∧ NumbersLeft v c)
      (Vfs.new RamFs.new) [.createFile "/f"] ∧
    ∃ fs, afterCalls [.createFile "/f"] = Vfs.new fs ∧ RamFs.Represents fs (oneFile 2) := by
  have hroom : 2 + 1 < wordSize := lt_wordSize (by decide)
  have hnew : RamFs.Represents RamFs.new (emptyMap 2) := RamFs.new_represents
  obtain ⟨fs, hcreate, hfs⟩ := hnew.after (emptyMap_create hroom)
  exact ⟨⟨⟨create_inBounds hnew, fun _ => hroom⟩, trivial⟩, fs, congrArg Prod.snd hcreate, hfs⟩

/-- Below a file. -/
theorem differ_below :
    Each (fun v c => (Vfs.call v c).2) InBounds (Vfs.new RamFs.new) [.createFile "/f"] ∧
      InBounds (afterCalls [.createFile "/f"]) (.metadata "/f/x") ∧
      ((afterCalls [.createFile "/f"]).call (.metadata "/f/x")).1 = .error .notDirectory ∧
      ((serve Vfs.call (Vfs.new smallDevice) [.createFile "/f"]).2.call (.metadata "/f/x")).1 =
        .error .notFound := by
  obtain ⟨heach, fs, hv, hfs⟩ := afterCalls_oneFile
  obtain ⟨fs', gs, hv', hw, -, hgs, hsame⟩ := smallDevice_inStep heach
  obtain rfl : fs = fs' := congrArg Vfs.root (hv.symm.trans hv')
  have hshort : ∀ cs, canonicalPath "/f/x" = .ok cs → ∀ n ∈ cs, n = "f" ∨ n = "x" := by
    intro cs hcs n hn
    rw [canonicalPath_fx] at hcs
    obtain rfl := Except.ok.inj hcs
    simpa using hn
  have hnone : pathMap gs ["f", "x"] = none := by
    rw [← hsame.eq_none, ← hfs.metadataAt_eq]
    rfl
  rw [hv, hw]
  refine ⟨heach.imp fun _ _ hboth => hboth.1, hfs.inBounds trivial hshort ?_, ?_,
    GenericFs.metadata_missing hgs canonicalPath_fx hnone⟩
  · rw [oneFile_below]
    exact oneFile_small 2
  · rw [(hfs.call_simulates _).reply, oneFile_below]

/-- After the last number. -/
theorem differ_exhausted {n : Nat} (hn : n + 3 = wordSize) :
    Each (fun v c => (Vfs.call v c).2) InBounds (Vfs.new RamFs.new) (rounds n) ∧
      InBounds (afterCalls (rounds n)) (.createFile "/f") ∧
      ((afterCalls (rounds n)).call (.createFile "/f")).1 = .error .inodeExhausted ∧
      ∃ x, ((serve Vfs.call (Vfs.new smallDevice) (rounds n)).2.call (.createFile "/f")).1 = .ok x := by
  have hnew : RamFs.Represents RamFs.new (emptyMap 2) := RamFs.new_represents
  obtain ⟨heach, fs, hv, hfs⟩ := @rounds_spec
    (fun v c => InBounds v c ∧ NumbersLeft v c) create_inside remove_inside n _ _ hnew (by omega)
  obtain ⟨fs', gs, hv', hw, -, hgs, hsame⟩ := smallDevice_inStep heach
  obtain rfl : fs = fs' := congrArg Vfs.root (hv.symm.trans hv')
  have hroot : pathMap fs [] = some ⟨1, .directory, 0⟩ := by
    rw [← hfs.metadataAt_eq]
    rfl
  obtain ⟨m, hm, hface⟩ := hsame.of_some hroot
  have hempty : ∀ path, path ≠ [] → pathMap gs path = none := by
    intro path hne
    rw [← hsame.eq_none, ← hfs.metadataAt_eq, PathMap.metadataAt,
      show (emptyMap (2 + n)).entry path = none from if_neg hne]
    rfl
  rw [show afterCalls (rounds n) = Vfs.new fs from hv, hw]
  refine ⟨heach.imp fun _ _ hboth => hboth.1, create_inBounds hfs, ?_,
    GenericFs.create_first hgs hm (congrArg Prod.fst hface).symm hempty⟩
  rw [(hfs.call_simulates _).reply, emptyMap_exhausted (by omega)]

/-- **Where the replies differ.** Below a file one backend says `NotDirectory` and the other one
`NotFound`. And after 2^64 - 3 files made and removed, one has no number for the next one, and the
other one makes it. -/
theorem backends_differ :
    (Each (fun v c => (Vfs.call v c).2) InBounds (Vfs.new RamFs.new) [.createFile "/f"] ∧
      InBounds (afterCalls [.createFile "/f"]) (.metadata "/f/x") ∧
      ((afterCalls [.createFile "/f"]).call (.metadata "/f/x")).1 = .error .notDirectory ∧
      ((serve Vfs.call (Vfs.new smallDevice) [.createFile "/f"]).2.call (.metadata "/f/x")).1 =
        .error .notFound) ∧
    ∃ n, n + 3 = wordSize ∧
      Each (fun v c => (Vfs.call v c).2) InBounds (Vfs.new RamFs.new) (rounds n) ∧
      InBounds (afterCalls (rounds n)) (.createFile "/f") ∧
      ((afterCalls (rounds n)).call (.createFile "/f")).1 = .error .inodeExhausted ∧
      ∃ x, ((serve Vfs.call (Vfs.new smallDevice) (rounds n)).2.call (.createFile "/f")).1 = .ok x := by
  have hbig : 3 ≤ wordSize := by
    rw [wordSize]
    decide
  obtain ⟨n, hn⟩ := Nat.exists_eq_add_of_le' hbig
  exact ⟨differ_below, n, hn.symm, differ_exhausted hn.symm⟩

/-- The root with a file in it, listed by both. -/
theorem backends_same_namespace_listing :
    SameReply (Twin ((afterCalls [.createFile "/f"]).call (.readDir "/")).2.root
      ((serve Vfs.call (Vfs.new smallDevice) [.createFile "/f"]).2.call (.readDir "/")).2.root)
      ((afterCalls [.createFile "/f"]).call (.readDir "/")).1
      ((serve Vfs.call (Vfs.new smallDevice) [.createFile "/f"]).2.call (.readDir "/")).1 := by
  obtain ⟨heach, fs, hv, hfs⟩ := afterCalls_oneFile
  have hcs : canonicalPath "/" = .ok [] := by decide +kernel
  have hbounds : InBounds (afterCalls [.createFile "/f"]) (.readDir "/") := by
    rw [hv]
    refine hfs.inBounds trivial (fun cs h n hn => ?_) (oneFile_small 2)
    rw [show canonicalPath (Call.readDir "/").path = .ok [] from hcs] at h
    obtain rfl := Except.ok.inj h
    cases hn
  refine (backends_same_namespace smallDevice_fresh _ heach _ hbounds (fun hc => hc.elim) ?_).2
  rintro ⟨cs, h, q, rest, hsplit, hrest, -⟩
  rw [show canonicalPath (Call.readDir "/").path = .ok [] from hcs] at h
  obtain rfl := Except.ok.inj h
  exact hrest (List.append_eq_nil_iff.mp hsplit.symm).2

end Differ

end GenericKernel.VfsCore
