import Mathlib.Data.Set.Finite.Basic
import GenericKernel.Lib.Bytes
import GenericKernel.Lib.Transition
import GenericKernel.Vfs.Lawful

/-!
# A filesystem as a map from paths

What a `Vfs` over one memory filesystem stands for: a finite map from paths, given by their
components, to directories and files with their bytes. Every node carries the number it was
issued when it was made. The operations here speak of entries and prefixes only.

* `PathMap.create`, `remove`, `write`, `truncate`, `read`, `readAll`, `readDir`, `metadata`, `call`.
* `PathMap.WellFormed` — finite, canonical, closed under prefixes, files without entries below
  them, numbers issued once; `call_wellFormed`.
* `PathMap.call_other` — a call changes the entry of its own path at most.
* `PathMap.call_creates`, `call_next_le` — a number is issued once.
* `PathMap.call_truncate`, `call_write`, `call_createFile`, `call_createDir` — the calls at a path
  whose entry is known.
-/

namespace GenericKernel.VfsCore

open GenericKernel.Lib

inductive Node where
  | directory
  | file (bytes : List UInt8)

structure Entry where
  inode : Nat
  node : Node

def Entry.metadata (e : Entry) : Metadata :=
  match e.node with
  | .directory => ⟨e.inode, .directory, 0⟩
  | .file bytes => ⟨e.inode, .file, bytes.length⟩

/-- The entries, and the next number to issue. -/
structure PathMap where
  entry : List String → Option Entry
  next : Nat

namespace PathMap

/-- The empty filesystem: the root directory, number 1. -/
def init : PathMap := ⟨fun path => if path = [] then some ⟨1, .directory⟩ else none, 2⟩

def metadataAt (m : PathMap) (path : List String) : Option Metadata :=
  (m.entry path).map Entry.metadata

/-- The entry at a path. A path that runs through a file is an error of its own. -/
def find (m : PathMap) (path : List String) : Except VfsError Entry :=
  match m.entry path with
  | some e => .ok e
  | none => .error (missError .notDirectory m.metadataAt path)

def findFile (m : PathMap) (path : List String) : Except VfsError (Nat × List UInt8) := do
  let e ← m.find path
  match e.node with
  | .directory => .error .isDirectory
  | .file bytes => .ok (e.inode, bytes)

def findDirectory (m : PathMap) (path : List String) : Except VfsError Unit := do
  let e ← m.find path
  match e.node with
  | .directory => .ok ()
  | .file _ => .error .notDirectory

def set (m : PathMap) (path : List String) (e : Option Entry) : PathMap :=
  { m with entry := Function.update m.entry path e }

/-- A new node is put at a free path whose parent is a directory. -/
def createAt (m : PathMap) (node : Node) (path : List String) : Except VfsError Metadata × PathMap :=
  if path = [] then (.error .rootImmutable, m)
  else
    match m.findDirectory path.dropLast with
    | .error e => (.error e, m)
    | .ok () =>
      if (m.entry path).isSome then (.error .alreadyExists, m)
      else if wordSize ≤ m.next + 1 then (.error .inodeExhausted, m)
      else
        (.ok (Entry.metadata ⟨m.next, node⟩),
          { m.set path (some ⟨m.next, node⟩) with next := m.next + 1 })

open Classical in
/-- A node without entries below it is taken out. -/
noncomputable def removeAt (m : PathMap) (path : List String) : Except VfsError Unit × PathMap :=
  if path = [] then (.error .rootImmutable, m)
  else
    match m.findDirectory path.dropLast with
    | .error e => (.error e, m)
    | .ok () =>
      if m.entry path = none then (.error .notFound, m)
      else if ∃ name, m.entry (path ++ [name]) ≠ none then (.error .directoryNotEmpty, m)
      else (.ok (), m.set path none)

def writeAt (m : PathMap) (offset : Nat) (data : List UInt8) (path : List String) :
    Except VfsError Nat × PathMap :=
  match m.findFile path with
  | .error e => (.error e, m)
  | .ok (inode, bytes) =>
    if wordSize ≤ offset + data.length then (.error .offsetOverflow, m)
    else (.ok data.length, m.set path (some ⟨inode, .file (overwrite bytes offset data)⟩))

def truncateAt (m : PathMap) (len : Nat) (path : List String) : Except VfsError Unit × PathMap :=
  match m.findFile path with
  | .error e => (.error e, m)
  | .ok (inode, bytes) => (.ok (), m.set path (some ⟨inode, .file (resize bytes len)⟩))

def readAt (m : PathMap) (offset bufferLen : Nat) (path : List String) :
    Except VfsError (List UInt8) := do
  let (_, bytes) ← m.findFile path
  return (bytes.drop offset).take bufferLen

def readAllAt (m : PathMap) (path : List String) : Except VfsError (List UInt8) := do
  let (_, bytes) ← m.findFile path
  return bytes

open Classical in
/-- The sorted list of the entries one name below a directory. -/
noncomputable def readDirAt (m : PathMap) (path : List String) :
    Except VfsError (List DirEntry) := do
  m.findDirectory path
  return Classical.epsilon (IsListing fun name => m.metadataAt (path ++ [name]))

def metadataOf (m : PathMap) (path : List String) : Except VfsError Metadata := do
  return (← m.find path).metadata

/-- An operation that may change the map, on the path a string names. -/
def onPath {α : Type} (m : PathMap) (path : String)
    (op : List String → Except VfsError α × PathMap) : Except VfsError α × PathMap :=
  match canonicalPath path with
  | .error e => (.error e, m)
  | .ok cs => op cs

noncomputable def call (m : PathMap) : Call → Except VfsError Reply × PathMap
  | .createFile path =>
    ((m.onPath path (m.createAt (.file []))).1.map .metadata,
      (m.onPath path (m.createAt (.file []))).2)
  | .createDir path =>
    ((m.onPath path (m.createAt .directory)).1.map .metadata,
      (m.onPath path (m.createAt .directory)).2)
  | .write path offset data =>
    ((m.onPath path (m.writeAt offset data)).1.map .count,
      (m.onPath path (m.writeAt offset data)).2)
  | .truncate path len =>
    ((m.onPath path (m.truncateAt len)).1.map fun _ => .done, (m.onPath path (m.truncateAt len)).2)
  | .remove path =>
    ((m.onPath path m.removeAt).1.map fun _ => .done, (m.onPath path m.removeAt).2)
  | .read path offset bufferLen =>
    ((canonicalPath path >>= m.readAt offset bufferLen).map .bytes, m)
  | .readAll path => ((canonicalPath path >>= m.readAllAt).map .bytes, m)
  | .readDir path => ((canonicalPath path >>= m.readDirAt).map .entries, m)
  | .metadata path => ((canonicalPath path >>= m.metadataOf).map .metadata, m)

/-! ## Well-formed maps -/

structure WellFormed (m : PathMap) : Prop where
  finite : {path | m.entry path ≠ none}.Finite
  canonical : ∀ path, m.entry path ≠ none → Canonical path
  root : ∃ inode, m.entry [] = some ⟨inode, .directory⟩
  closed : ∀ path name, m.entry (path ++ [name]) ≠ none →
    ∃ inode, m.entry path = some ⟨inode, .directory⟩
  injective : ∀ path path' e e', m.entry path = some e → m.entry path' = some e' →
    e.inode = e'.inode → path = path'
  issued : ∀ path e, m.entry path = some e → e.inode < m.next

theorem init_wellFormed : WellFormed init where
  finite := by
    refine (Set.finite_singleton ([] : List String)).subset fun path hpath => ?_
    by_contra hne
    exact hpath (if_neg hne)
  canonical path hpath := by
    by_cases hnil : path = []
    · subst hnil
      exact Canonical.nil
    · exact absurd (if_neg hnil) hpath
  root := ⟨1, rfl⟩
  closed path name hne := absurd (if_neg (by simp)) hne
  injective path path' e e' he he' _ := by
    have hnil : ∀ {q : List String} {x : Entry}, init.entry q = some x → q = [] := by
      intro q x hx
      by_contra hne
      rw [show init.entry q = none from if_neg hne] at hx
      cases hx
    rw [hnil he, hnil he']
  issued path e he := by
    by_cases hnil : path = []
    · rw [hnil] at he
      obtain rfl := Option.some.inj he
      exact Nat.one_lt_two
    · rw [show init.entry path = none from if_neg hnil] at he
      cases he

/-- What a call can do to the entry of its path. -/
inductive Effect (m : PathMap) (path : List String) : PathMap → Prop
  | unchanged : Effect m path m
  | created {parent : Nat} (node : Node) : Canonical path → path ≠ [] →
      m.entry path.dropLast = some ⟨parent, .directory⟩ → m.entry path = none →
      Effect m path { m.set path (some ⟨m.next, node⟩) with next := m.next + 1 }
  | removed : path ≠ [] → (∀ name, m.entry (path ++ [name]) = none) → Effect m path (m.set path none)
  | stored {inode : Nat} {bytes : List UInt8} (bytes' : List UInt8) :
      m.entry path = some ⟨inode, .file bytes⟩ →
      Effect m path (m.set path (some ⟨inode, .file bytes'⟩))

variable {m m' : PathMap} {path : List String}

theorem findDirectory_ok (h : m.findDirectory path = .ok ()) :
    ∃ inode, m.entry path = some ⟨inode, .directory⟩ := by
  unfold findDirectory find at h
  cases he : m.entry path with
  | none =>
    rw [he] at h
    cases h
  | some e =>
    obtain ⟨inode, node⟩ := e
    cases node with
    | directory => exact ⟨inode, rfl⟩
    | file bytes =>
      rw [he] at h
      cases h

theorem findFile_ok {inode : Nat} {bytes : List UInt8} (h : m.findFile path = .ok (inode, bytes)) :
    m.entry path = some ⟨inode, .file bytes⟩ := by
  unfold findFile find at h
  cases he : m.entry path with
  | none =>
    rw [he] at h
    cases h
  | some e =>
    rw [he] at h
    obtain ⟨inode', node⟩ := e
    cases node with
    | directory => cases h
    | file bytes' =>
      obtain ⟨rfl, rfl⟩ : inode' = inode ∧ bytes' = bytes := by
        simpa [Prod.ext_iff] using Except.ok.inj h
      rfl

theorem createAt_effect (node : Node) (hpath : Canonical path) :
    Effect m path (m.createAt node path).2 := by
  unfold createAt
  split
  · exact .unchanged
  · rename_i hne
    split
    · exact .unchanged
    · rename_i hdir
      obtain ⟨parent, hparent⟩ := findDirectory_ok hdir
      split
      · exact .unchanged
      · rename_i hfree
        split
        · exact .unchanged
        · exact .created node hpath hne hparent (by simpa using hfree)

theorem removeAt_effect : Effect m path (m.removeAt path).2 := by
  unfold removeAt
  split
  · exact .unchanged
  · rename_i hne
    split
    · exact .unchanged
    · split
      · exact .unchanged
      · split
        · exact .unchanged
        · rename_i hleaf
          exact .removed hne (by simpa using hleaf)

theorem writeAt_effect (offset : Nat) (data : List UInt8) :
    Effect m path (m.writeAt offset data path).2 := by
  unfold writeAt
  split
  · exact .unchanged
  · rename_i hfile
    split
    · exact .unchanged
    · exact .stored _ (findFile_ok hfile)

theorem truncateAt_effect (len : Nat) : Effect m path (m.truncateAt len path).2 := by
  unfold truncateAt
  split
  · exact .unchanged
  · rename_i hfile
    exact .stored _ (findFile_ok hfile)

/-- **What a call can do**: nothing, or one effect at its path. -/
theorem call_effect (m : PathMap) (c : Call) :
    (m.call c).2 = m ∨ ∃ path, canonicalPath c.path = .ok path ∧ Effect m path (m.call c).2 := by
  have hpath : ∀ {α : Type} (text : String) (op : List String → Except VfsError α × PathMap),
      (∀ path, Canonical path → Effect m path (op path).2) →
      (m.onPath text op).2 = m ∨
        ∃ path, canonicalPath text = .ok path ∧ Effect m path (m.onPath text op).2 := by
    intro α text op hop
    unfold onPath
    cases hcs : canonicalPath text with
    | error e => exact Or.inl rfl
    | ok cs => exact Or.inr ⟨cs, rfl, hop cs (canonicalPath_canonical hcs)⟩
  cases c with
  | createFile text => exact hpath text _ fun _ h => createAt_effect _ h
  | createDir text => exact hpath text _ fun _ h => createAt_effect _ h
  | write text offset data => exact hpath text _ fun _ _ => writeAt_effect offset data
  | truncate text len => exact hpath text _ fun _ _ => truncateAt_effect len
  | remove text => exact hpath text _ fun _ _ => removeAt_effect
  | read text offset bufferLen => exact Or.inl rfl
  | readAll text => exact Or.inl rfl
  | readDir text => exact Or.inl rfl
  | metadata text => exact Or.inl rfl

theorem Effect.other {other : List String} (h : Effect m path m') (hne : other ≠ path) :
    m'.entry other = m.entry other := by
  cases h with
  | unchanged => rfl
  | created => exact Function.update_of_ne hne _ _
  | removed => exact Function.update_of_ne hne _ _
  | stored => exact Function.update_of_ne hne _ _

/-- A call changes the entry of its own path at most. -/
theorem call_other (m : PathMap) (c : Call) {path : List String}
    (h : canonicalPath c.path ≠ .ok path) : (m.call c).2.entry path = m.entry path := by
  rcases call_effect m c with hsame | ⟨target, htarget, heffect⟩
  · rw [hsame]
  · refine heffect.other ?_
    rintro rfl
    exact h htarget

theorem finite_set (hfinite : {path | m.entry path ≠ none}.Finite) (path : List String)
    (e : Option Entry) : {q | (m.set path e).entry q ≠ none}.Finite := by
  refine (hfinite.insert path).subset fun q hq => ?_
  by_cases hqp : q = path
  · exact Or.inl hqp
  · refine Or.inr ?_
    have hother : (m.set path e).entry q = m.entry q := Function.update_of_ne hqp _ _
    rwa [Set.mem_ofPred_eq, hother] at hq

/-- One entry changed: what has to be shown of it. -/
theorem WellFormed.set (h : WellFormed m) {e : Option Entry} {next : Nat} (hnext : m.next ≤ next)
    (hcanonical : Canonical path) (hroot : path = [] → ∃ inode, e = some ⟨inode, .directory⟩)
    (hparent : e ≠ none → ∀ q name, path = q ++ [name] →
      ∃ inode, m.entry q = some ⟨inode, .directory⟩)
    (hbelow : (¬ ∃ inode, e = some ⟨inode, .directory⟩) → ∀ name, m.entry (path ++ [name]) = none)
    (hinode : ∀ x, e = some x → x.inode < next ∧ ∀ q y, q ≠ path → m.entry q = some y →
      y.inode ≠ x.inode) :
    WellFormed { m.set path e with next := next } := by
  have hself : (m.set path e).entry path = e := Function.update_self _ _ _
  have hother : ∀ {q}, q ≠ path → (m.set path e).entry q = m.entry q := fun hne =>
    Function.update_of_ne hne _ _
  refine ⟨finite_set h.finite path e, fun q hq => ?_, ?_, fun q name hq => ?_,
    fun q q' x x' hx hx' heq => ?_, fun q x hx => ?_⟩
  · by_cases hqp : q = path
    · rw [hqp]
      exact hcanonical
    · exact h.canonical q (by rwa [← hother hqp])
  · by_cases hnil : path = []
    · obtain ⟨inode, he⟩ := hroot hnil
      exact ⟨inode, by rw [← hnil, ← he]; exact hself⟩
    · obtain ⟨inode, he⟩ := h.root
      exact ⟨inode, (hother (Ne.symm hnil)).trans he⟩
  · by_cases hqp : q ++ [name] = path
    · have hqne : q ≠ path := fun heq => by simp [heq] at hqp
      have hsome : e ≠ none := by
        intro he
        rw [hqp] at hq
        exact hq (hself.trans he)
      obtain ⟨inode, hi⟩ := hparent hsome q name hqp.symm
      exact ⟨inode, (hother hqne).trans hi⟩
    · have hold : m.entry (q ++ [name]) ≠ none := by rwa [← hother hqp]
      by_cases hq' : q = path
      · by_contra hnot
        refine hold ?_
        rw [hq']
        refine hbelow (fun ⟨inode, he⟩ => hnot ⟨inode, ?_⟩) name
        rw [hq', ← he]
        exact hself
      · obtain ⟨inode, hi⟩ := h.closed q name hold
        exact ⟨inode, (hother hq').trans hi⟩
  · by_cases hqp : q = path
    · subst hqp
      by_cases hqp' : q' = q
      · exact hqp'.symm
      · exact absurd heq.symm
          ((hinode x (hself.symm.trans hx)).2 q' x' hqp' ((hother hqp').symm.trans hx'))
    · by_cases hqp' : q' = path
      · subst hqp'
        exact absurd heq ((hinode x' (hself.symm.trans hx')).2 q x hqp ((hother hqp).symm.trans hx))
      · exact h.injective q q' x x' ((hother hqp).symm.trans hx) ((hother hqp').symm.trans hx') heq
  · by_cases hqp : q = path
    · subst hqp
      exact (hinode x (hself.symm.trans hx)).1
    · exact (h.issued q x ((hother hqp).symm.trans hx)).trans_le hnext

theorem Effect.wellFormed (h : Effect m path m') (hm : WellFormed m) : WellFormed m' := by
  cases h with
  | unchanged => exact hm
  | @created parent node hcanonical hne hdir hfree =>
    refine hm.set (Nat.le_succ _) hcanonical (fun hnil => absurd hnil hne)
      (fun _ q name hq => ⟨parent, ?_⟩) (fun _ name => ?_) (fun x hx => ?_)
    · rw [← hdir, hq, List.dropLast_concat]
    · by_contra hbelow
      obtain ⟨inode, hi⟩ := hm.closed path name hbelow
      rw [hfree] at hi
      cases hi
    · obtain rfl := Option.some.inj hx
      exact ⟨Nat.lt_succ_self _, fun q y _ hy => (hm.issued q y hy).ne⟩
  | removed hne hleaf =>
    by_cases hcanonical : m.entry path = none
    · have hsame : m.set path none = m := by
        unfold set
        rw [← hcanonical, Function.update_eq_self]
      rw [hsame]
      exact hm
    · exact hm.set le_rfl (hm.canonical path hcanonical) (fun hnil => absurd hnil hne)
        (fun habs => absurd rfl habs) (fun _ => hleaf) (fun x hx => nomatch hx)
  | @stored inode bytes bytes' hfile =>
    have hlive : m.entry path ≠ none := by rw [hfile]; simp
    refine hm.set le_rfl (hm.canonical path hlive) (fun hnil => ?_) (fun _ q name hq => ?_)
      (fun _ name => ?_) (fun x hx => ?_)
    · obtain ⟨inode', hroot⟩ := hm.root
      rw [hnil, hroot] at hfile
      cases hfile
    · rw [hq] at hlive
      exact hm.closed q name hlive
    · by_contra hbelow
      obtain ⟨inode', hi⟩ := hm.closed path name hbelow
      rw [hfile] at hi
      cases hi
    · obtain rfl := Option.some.inj hx
      have hissued := hm.issued path _ hfile
      refine ⟨hissued, fun q y hne hy heq => hne ?_⟩
      exact hm.injective q path y _ hy hfile heq

theorem call_wellFormed (hm : WellFormed m) (c : Call) : WellFormed (m.call c).2 := by
  rcases call_effect m c with hsame | ⟨path, -, heffect⟩
  · rw [hsame]
    exact hm
  · exact heffect.wellFormed hm

/-! ## Numbers are issued once -/

theorem Effect.next_le (h : Effect m path m') : m.next ≤ m'.next := by
  cases h with
  | unchanged => exact le_rfl
  | created => exact Nat.le_succ _
  | removed => exact le_rfl
  | stored => exact le_rfl

theorem call_next_le (m : PathMap) (c : Call) : m.next ≤ (m.call c).2.next := by
  rcases call_effect m c with hsame | ⟨path, -, heffect⟩
  · rw [hsame]
  · exact heffect.next_le

theorem createAt_ok {node : Node} {x : Metadata} (h : (m.createAt node path).1 = .ok x) :
    x.inode = m.next ∧ (m.createAt node path).2.next = m.next + 1 := by
  unfold createAt at h ⊢
  by_cases hroot : path = []
  · rw [if_pos hroot] at h
    cases h
  · rw [if_neg hroot] at h ⊢
    cases hdir : m.findDirectory path.dropLast with
    | error e =>
      rw [hdir] at h
      cases h
    | ok _ =>
      rw [hdir] at h
      dsimp only at h ⊢
      by_cases htaken : (m.entry path).isSome
      · rw [if_pos htaken] at h
        cases h
      · rw [if_neg htaken] at h ⊢
        by_cases hfull : wordSize ≤ m.next + 1
        · rw [if_pos hfull] at h
          cases h
        · rw [if_neg hfull] at h ⊢
          obtain rfl := Except.ok.inj h
          refine ⟨?_, rfl⟩
          unfold Entry.metadata
          cases node <;> rfl

/-- A new node gets the next number. -/
theorem call_creates {c : Call} {x : Metadata} (hc : c.Creates)
    (h : (m.call c).1 = .ok (.metadata x)) :
    x.inode = m.next ∧ (m.call c).2.next = m.next + 1 := by
  have hpath : ∀ (text : String) (node : Node),
      (m.onPath text (m.createAt node)).1.map Reply.metadata = .ok (.metadata x) →
      x.inode = m.next ∧ (m.onPath text (m.createAt node)).2.next = m.next + 1 := by
    intro text node hok
    unfold onPath at hok ⊢
    cases hcs : canonicalPath text with
    | error e =>
      rw [hcs] at hok
      cases hok
    | ok cs =>
      rw [hcs] at hok
      dsimp only at hok ⊢
      cases hresult : (m.createAt node cs).1 with
      | error e =>
        rw [hresult] at hok
        cases hok
      | ok y =>
        rw [hresult] at hok
        have hxy : y = x := Reply.metadata.inj (Except.ok.inj hok)
        exact createAt_ok (hxy ▸ hresult)
  cases c with
  | createFile text => exact hpath text _ h
  | createDir text => exact hpath text _ h
  | write => cases hc
  | truncate => cases hc
  | remove => cases hc
  | read => cases hc
  | readAll => cases hc
  | readDir => cases hc
  | metadata => cases hc

/-! ## Calls at a known entry -/

section Calls

variable {m : PathMap} {path : String} {cs : List String} {i : Nat}

theorem call_truncate {bytes : List UInt8} (hcs : canonicalPath path = .ok cs)
    (hentry : m.entry cs = some ⟨i, .file bytes⟩) :
    m.call (.truncate path 0) = (.ok .done, m.set cs (some ⟨i, .file []⟩)) := by
  have hfile : m.findFile cs = .ok (i, bytes) := by
    unfold findFile find
    rw [hentry]
    rfl
  have hresize : resize bytes 0 = [] := by simp [resize]
  simp only [call, onPath, hcs, truncateAt, hfile, hresize]
  rfl

theorem call_write {data : List UInt8} (hcs : canonicalPath path = .ok cs)
    (hentry : m.entry cs = some ⟨i, .file []⟩) (hdata : data.length < wordSize) :
    m.call (.write path 0 data) =
      (.ok (.count data.length), m.set cs (some ⟨i, .file data⟩)) := by
  have hfile : m.findFile cs = .ok (i, []) := by
    unfold findFile find
    rw [hentry]
    rfl
  have hbytes : overwrite [] 0 data = data := by simp [overwrite]
  simp only [call, onPath, hcs, writeAt, hfile, hbytes, Nat.zero_add,
    if_neg (Nat.not_le.mpr hdata)]
  rfl

/-- Creating at a free path below a directory. -/
theorem createAt_free (node : Node) (hne : cs ≠ []) (hfree : m.entry cs = none)
    (hparent : m.entry cs.dropLast = some ⟨i, .directory⟩) (hroom : m.next + 1 < wordSize) :
    m.createAt node cs = (.ok (Entry.metadata ⟨m.next, node⟩),
      { m.set cs (some ⟨m.next, node⟩) with next := m.next + 1 }) := by
  have hdir : m.findDirectory cs.dropLast = .ok () := by
    unfold findDirectory find
    rw [hparent]
    rfl
  unfold createAt
  rw [if_neg hne, hdir]
  dsimp only
  rw [hfree, if_neg (by simp), if_neg (Nat.not_le.mpr hroom)]

variable {r : Except VfsError Metadata × PathMap}

theorem call_createFile (hcs : canonicalPath path = .ok cs) (h : m.createAt (.file []) cs = r) :
    m.call (.createFile path) = (r.1.map .metadata, r.2) := by
  simp only [call, onPath, hcs, h]

theorem call_createDir (hcs : canonicalPath path = .ok cs) (h : m.createAt .directory cs = r) :
    m.call (.createDir path) = (r.1.map .metadata, r.2) := by
  simp only [call, onPath, hcs, h]

end Calls

end PathMap

end GenericKernel.VfsCore
