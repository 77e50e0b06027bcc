import GenericKernel.Vfs.RamFsRefines

/-!
# The kernel's file calls (`kernel/src/vfs.rs`)

The kernel reaches files through a handful of functions over its `Vfs`. `write_file` is the only one
that makes several calls: it looks the path up, then truncates, creates or finds the end of the file,
and then writes. It is still atomic on the root filesystem, because the last step cannot fail where
the one before it has changed something.

* `Kept` — what every request can do: the entry of its own path changes at most.
* `writeFile_saved` — one `write_file`; `runRequests_keeps` — any sequence of requests.
* `writeFile_durable` — what was written is read back, whatever is done to other paths in between.
-/

namespace GenericKernel.KernelVfs

open GenericKernel.Lib GenericKernel.VfsCore GenericKernel.VfsCore.RamFs

section Model

variable {F : Type} [FileSystem F]

def readFile (v : Vfs F) (path : String) : Except VfsError (List UInt8) := v.readAll path

def writeFile (v : Vfs F) (path : String) (data : Slice UInt8) (append : Bool) :
    Except VfsError Nat × Vfs F :=
  match v.metadata path with
  | .ok metadata =>
      if metadata.kind = .directory then (.error .isDirectory, v)
      -- `usize::try_from` cannot fail: both are 64 bits wide
      else if append then v.write path metadata.len data.items
      else andThen (v.truncate path 0) fun v => v.write path 0 data.items
  | .error e =>
      if e = .notFound then andThen (v.createFile path) fun v => v.write path 0 data.items
      else (.error e, v)

def touch (v : Vfs F) (path : String) : Except VfsError Unit × Vfs F :=
  match v.metadata path with
  | .ok metadata => if metadata.kind = .file then (.ok (), v) else (.error .isDirectory, v)
  | .error e =>
      if e = .notFound then andThen (v.createFile path) fun v => (.ok (), v)
      else (.error e, v)

def mkdir (v : Vfs F) (path : String) : Except VfsError Unit × Vfs F :=
  andThen (v.createDir path) fun v => (.ok (), v)

/-- A call of one of the functions of `kernel/src/vfs.rs`. -/
inductive Request
  | writeFile (path : String) (data : Slice UInt8) (append : Bool)
  | touch (path : String)
  | mkdir (path : String)
  | remove (path : String)
  /-- `metadata`, `read_dir` or `read_file`. -/
  | look (path : String)

def Request.path : Request → String
  | .writeFile path _ _ => path
  | .touch path => path
  | .mkdir path => path
  | .remove path => path
  | .look path => path

/-- The VFS behind a request. -/
def next (v : Vfs F) : Request → Vfs F
  | .writeFile path data append => (writeFile v path data append).2
  | .touch path => (touch v path).2
  | .mkdir path => (mkdir v path).2
  | .remove path => (v.remove path).2
  | .look _ => v

def runRequests (v : Vfs F) (requests : List Request) : Vfs F := requests.foldl next v

end Model

variable {fs : RamFs} {m : PathMap} {cs : List String} {path : String} {data : Slice UInt8}

/-! ## What a request can do -/

/-- The tree is still a path map, with the entries of `m` at all other paths. -/
def Kept (m : PathMap) (path : String) (v : Vfs RamFs) : Prop :=
  ∃ fs' m', v = Vfs.new fs' ∧ Represents fs' m' ∧
    ∀ cs, canonicalPath path ≠ .ok cs → m'.entry cs = m.entry cs

theorem Kept.refl (h : Represents fs m) : Kept m path (Vfs.new fs) :=
  ⟨fs, m, rfl, h, fun _ _ => rfl⟩

theorem Kept.call (h : Represents fs m) (c : Call) : Kept m c.path ((Vfs.new fs).call c).2 := by
  obtain ⟨fs', hstate, hfs'⟩ := (h.call_simulates c).state
  exact ⟨fs', _, hstate, hfs', fun cs hcs => PathMap.call_other m c hcs⟩

theorem Kept.andThen {α β : Type} {r : Except VfsError α × Vfs RamFs}
    {next : Vfs RamFs → Except VfsError β × Vfs RamFs} (h : Kept m path r.2)
    (hnext : ∀ {fs m}, Represents fs m → Kept m path (next (Vfs.new fs)).2) :
    Kept m path (andThen r next).2 := by
  obtain ⟨result, v⟩ := r
  cases result with
  | error e => exact h
  | ok a =>
      obtain ⟨fs₁, m₁, rfl, hfs₁, hsame₁⟩ := h
      obtain ⟨fs₂, m₂, hv, hfs₂, hsame₂⟩ := hnext hfs₁
      exact ⟨fs₂, m₂, hv, hfs₂, fun cs hcs => (hsame₂ cs hcs).trans (hsame₁ cs hcs)⟩

theorem Kept.next (h : Represents fs m) (r : Request) : Kept m r.path (next (Vfs.new fs) r) := by
  cases r with
  | look path => exact .refl h
  | mkdir path => exact .andThen (.call h (.createDir path)) .refl
  | remove path => exact .call h (.remove path)
  | touch path =>
      show Kept m path (touch (Vfs.new fs) path).2
      unfold touch
      split
      · split <;> exact .refl h
      · split
        · exact .andThen (.call h (.createFile path)) .refl
        · exact .refl h
  | writeFile path data append =>
      show Kept m path (writeFile (Vfs.new fs) path data append).2
      unfold writeFile
      split
      · split
        · exact .refl h
        · split
          · exact .call h (.write path _ data.items)
          · exact .andThen (.call h (.truncate path 0)) fun h => .call h (.write path 0 data.items)
      · split
        · exact .andThen (.call h (.createFile path)) fun h => .call h (.write path 0 data.items)
        · exact .refl h

/-- Any sequence of requests leaves the entries alone that none of them names. -/
theorem runRequests_keeps (requests : List Request) : ∀ {fs : RamFs} {m : PathMap}, Represents fs m →
    ∃ fs' m', runRequests (Vfs.new fs) requests = Vfs.new fs' ∧ Represents fs' m' ∧
      ∀ cs, (∀ r ∈ requests, canonicalPath r.path ≠ .ok cs) → m'.entry cs = m.entry cs := by
  induction requests with
  | nil => exact fun h => ⟨_, _, rfl, h, fun _ _ => rfl⟩
  | cons r rest ih =>
      intro fs m h
      obtain ⟨fs₁, m₁, hv, hfs₁, hsame₁⟩ := Kept.next h r
      obtain ⟨fs₂, m₂, hrun, hfs₂, hsame₂⟩ := ih hfs₁
      refine ⟨fs₂, m₂, ?_, hfs₂, fun cs hcs => ?_⟩
      · show runRequests (next (Vfs.new fs) r) rest = _
        rw [hv, hrun]
      · rw [hsame₂ cs fun r' hr' => hcs r' (List.mem_cons_of_mem _ hr')]
        exact hsame₁ cs (hcs r List.mem_cons_self)

/-! ## One `write_file` -/

/-- A call that fails on the map fails, and changes nothing. -/
theorem call_failed {c : Call} {e : VfsError} (h : Represents fs m) (hc : (m.call c).1 = .error e) :
    (Vfs.new fs).call c = (.error e, Vfs.new fs) := by
  have hsim := h.call_simulates c
  have hreply := hsim.reply.trans hc
  exact Prod.ext hreply (hsim.unchanged e hreply)

/-- The result of a `write`, from the reply of its call. -/
theorem write_of_call {v v' : Vfs RamFs} {offset : Nat} {r : Except VfsError Nat}
    (h : v.call (.write path offset data.items) = (r.map .count, v')) :
    v.write path offset data.items = (r, v') := by
  obtain ⟨hreply, hstate⟩ := Prod.mk.inj h
  refine Prod.ext ?_ hstate
  cases hwrite : (v.write path offset data.items).1 <;> cases r <;> rw [hwrite] at hreply <;>
    cases hreply <;> rfl

theorem call_append {inode : Nat} {old : List UInt8} (hcs : canonicalPath path = .ok cs)
    (hfile : m.entry cs = some ⟨inode, .file old⟩) :
    m.call (.write path old.length data.items) =
      if wordSize ≤ old.length + data.items.length then (.error .offsetOverflow, m)
      else (.ok (.count data.items.length), m.set cs (some ⟨inode, .file (old ++ data.items)⟩)) := by
  have hbytes : overwrite old old.length data.items = old ++ data.items := by
    unfold overwrite resize
    rw [Nat.max_eq_right (Nat.le_add_right _ _), List.drop_eq_nil_of_le (Nat.le_add_right _ _)]
    simp
  have hfind : m.findFile cs = .ok (inode, old) := by
    unfold PathMap.findFile PathMap.find
    rw [hfile]
    rfl
  simp only [PathMap.call, PathMap.onPath, hcs, PathMap.writeAt, hfind, hbytes]
  split <;> rfl

/-- What the path holds before the data: nothing, unless the data is appended. -/
def oldContents (v : Vfs RamFs) (path : String) (append : Bool) : List UInt8 :=
  if append then (readFile v path).toOption.getD [] else []

/-- The file behind a successful `write_file`. -/
def Saved (path : String) (bytes : List UInt8) (data : Slice UInt8)
    (r : Except VfsError Nat × Vfs RamFs) : Prop :=
  ∃ cs fs m inode, canonicalPath path = .ok cs ∧ r = (.ok data.length, Vfs.new fs) ∧
    Represents fs m ∧ m.entry cs = some ⟨inode, .file bytes⟩

/-- The write into an empty file succeeds. -/
theorem write_saved {inode : Nat} (h : Represents fs m) (hcs : canonicalPath path = .ok cs)
    (hfile : m.entry cs = some ⟨inode, .file []⟩) :
    Saved path data.items data ((Vfs.new fs).write path 0 data.items) := by
  obtain ⟨fs', hcall, hfs'⟩ := h.after (PathMap.call_write hcs hfile data.fits)
  exact ⟨cs, fs', _, inode, hcs, write_of_call (r := .ok _) hcall, hfs', Function.update_self _ _ _⟩

theorem createAt_entry {x : Metadata} (h : (m.createAt (.file []) cs).1 = .ok x) :
    (m.createAt (.file []) cs).2.entry cs = some ⟨m.next, .file []⟩ := by
  unfold PathMap.createAt at h ⊢
  repeat' split at h
  all_goals cases h
  rename_i hne _ _ hfree hroom
  rw [if_neg hne, if_neg hfree, if_neg hroom]
  exact Function.update_self _ _ _

theorem create_saved (h : Represents fs m) (hcs : canonicalPath path = .ok cs) :
    (∃ e, andThen ((Vfs.new fs).createFile path) (fun v => v.write path 0 data.items) =
        (.error e, Vfs.new fs)) ∨
      Saved path data.items data
        (andThen ((Vfs.new fs).createFile path) fun v => v.write path 0 data.items) := by
  have hcall := @PathMap.call_createFile m path cs _ hcs rfl
  cases hcreate : (m.createAt (.file []) cs).1 with
  | error e =>
      rw [hcreate] at hcall
      exact .inl ⟨e, andThen_of_map_error (call_failed h (congrArg Prod.fst hcall)) _⟩
  | ok x =>
      rw [hcreate] at hcall
      obtain ⟨fs', hcall', hfs'⟩ := h.after hcall
      rw [andThen_of_map hcall']
      exact .inr (write_saved hfs' hcs (createAt_entry hcreate))

/-- **`write_file` is atomic**: it fails and changes nothing, or the file holds all of the data. -/
theorem writeFile_saved (h : Represents fs m) (path : String) (data : Slice UInt8) (append : Bool) :
    (∃ e, writeFile (Vfs.new fs) path data append = (.error e, Vfs.new fs)) ∨
      Saved path (oldContents (Vfs.new fs) path append ++ data.items) data
        (writeFile (Vfs.new fs) path data append) := by
  cases hcs : canonicalPath path with
  | error e =>
      have hcreate : (Vfs.new fs).createFile path = (.error e, Vfs.new fs) :=
        Vfs.withParentMut_of_error hcs _
      refine .inl ⟨e, ?_⟩
      unfold writeFile
      rw [show (Vfs.new fs).metadata path = .error e from Vfs.withInode_of_error hcs _]
      dsimp only
      rw [hcreate]
      exact ite_self _
  | ok cs =>
      unfold writeFile oldContents readFile
      rw [h.metadata_eq hcs, h.readAll_eq hcs]
      unfold PathMap.metadataOf PathMap.readAllAt PathMap.findFile PathMap.find
      cases hentry : m.entry cs with
      | none =>
          have hnothing : (if append then ([] : List UInt8) else []) = [] := ite_self _
          dsimp only [bind, Except.bind, Except.toOption, Option.getD]
          rw [hnothing]
          split
          · exact create_saved h hcs
          · exact .inl ⟨_, rfl⟩
      | some entry =>
          obtain ⟨inode, node⟩ := entry
          cases node with
          | directory => exact .inl ⟨_, rfl⟩
          | file old =>
              cases append with
              | false =>
                  obtain ⟨fs', hcall, hfs'⟩ := h.after (PathMap.call_truncate hcs hentry)
                  refine .inr ?_
                  show Saved path data.items data (andThen ((Vfs.new fs).truncate path 0) _)
                  rw [andThen_of_map hcall]
                  exact write_saved hfs' hcs (Function.update_self _ _ _)
              | true =>
                  have happend := @call_append m cs path data inode old hcs hentry
                  show (∃ e, (Vfs.new fs).write path old.length data.items = _) ∨
                    Saved path (old ++ data.items) data ((Vfs.new fs).write path old.length data.items)
                  split at happend
                  · have hcall := call_failed h (congrArg Prod.fst happend)
                    exact .inl ⟨_, write_of_call (r := .error _) hcall⟩
                  · obtain ⟨fs', hcall, hfs'⟩ := h.after happend
                    exact .inr ⟨cs, fs', _, inode, hcs, write_of_call (r := .ok _) hcall, hfs',
                      Function.update_self _ _ _⟩

/-- **What the kernel writes stays written.** In every state that boot and requests lead to, a failed
`write_file` changes nothing; a successful one counts all of its data, and after any further requests
for other paths `read_file` returns the data, behind what the file held if it was appended. -/
theorem writeFile_durable (boot : List Call) (before after : List Request) (path : String)
    (data : Slice UInt8) (append : Bool) :
    let v := runRequests (afterCalls boot) before
    (∀ e, (writeFile v path data append).1 = .error e → (writeFile v path data append).2 = v) ∧
    ∀ n, (writeFile v path data append).1 = .ok n → n = data.length ∧
      ((∀ r ∈ after, canonicalPath r.path ≠ canonicalPath path) →
        readFile (runRequests (writeFile v path data append).2 after) path =
          .ok (oldContents v path append ++ data.items)) := by
  intro v
  obtain ⟨-, fs₀, hboot, hfs₀⟩ := new_represents.serve boot
  obtain ⟨fs, m, hv, hfs, -⟩ := runRequests_keeps before hfs₀
  have hv : v = Vfs.new fs := (congrArg (runRequests · before) hboot).trans hv
  rw [hv]
  rcases writeFile_saved hfs path data append with
    ⟨e, hfailed⟩ | ⟨cs, fs₁, m₁, inode, hcs, hdone, hfs₁, hentry⟩
  · rw [hfailed]
    exact ⟨fun _ _ => rfl, fun n hn => (by cases hn)⟩
  · rw [hdone]
    refine ⟨fun e he => (by cases he), fun n hn => ⟨(Except.ok.inj hn).symm, fun hother => ?_⟩⟩
    obtain ⟨fs₂, m₂, hrun, hfs₂, hsame⟩ := runRequests_keeps after hfs₁
    dsimp only
    rw [hrun]
    unfold readFile
    rw [hfs₂.readAll_eq hcs]
    unfold PathMap.readAllAt PathMap.findFile PathMap.find
    rw [hsame cs fun r hr => hcs ▸ hother r hr, hentry]
    rfl

end GenericKernel.KernelVfs
