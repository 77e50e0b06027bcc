import GenericKernel.Vfs.RamFs

/-!
# Normal forms of paths

`normalize_path` runs the parts of a path through a stack and writes the stack out.

* `stackStep`, `pushComponents_eq_foldl` — the stack on its own, without the checks of names.
* `splitSlash_joinPath`, `pushComponents_joinPath` — splitting a canonical path gives its components back,
  and pushing them checks nothing new.
* `normalizePath_normal` — the form of a result, and that normalising again changes nothing.
* `normalizePath_step` — normalising in two steps is normalising at once.
-/

namespace GenericKernel.VfsCore

/-! ## The stack -/

/-- One part of a path: nothing, one level up (staying at the root), or a name. -/
def stackStep (stack : List String) (part : String) : List String :=
  if part = "" ∨ part = "." then stack
  else if part = ".." then stack.dropLast
  else stack ++ [part]

variable {cs : List String} {base path : String}

/-- Where the names are accepted, the loop is the stack. -/
theorem pushComponents_eq_foldl {parts cs' : List String} (h : pushComponents cs parts = .ok cs') :
    cs' = parts.foldl stackStep cs := by
  induction parts generalizing cs with
  | nil => exact (Except.ok.inj h).symm
  | cons part parts ih =>
    rw [List.foldl_cons]
    unfold pushComponents at h
    unfold stackStep
    split at h
    · rw [if_pos ‹_›]
      exact ih h
    · rw [if_neg ‹_›]
      split at h
      · rw [if_pos ‹_›]
        exact ih h
      · rw [if_neg ‹_›]
        cases hvalid : validateName part with
        | error e =>
          rw [hvalid] at h
          cases h
        | ok u =>
          rw [hvalid] at h
          exact ih h

theorem pushComponents_append (cs parts parts' : List String) :
    pushComponents cs (parts ++ parts') =
      pushComponents cs parts >>= fun cs' => pushComponents cs' parts' := by
  induction parts generalizing cs with
  | nil => rfl
  | cons part parts ih =>
    rw [List.cons_append, pushComponents, pushComponents]
    split
    · exact ih cs
    · split
      · exact ih _
      · cases validateName part with
        | error e => rfl
        | ok u => exact ih _

/-- A valid name is pushed. -/
theorem pushComponents_valid {ds : List String} (h : Canonical ds) :
    pushComponents cs ds = .ok (cs ++ ds) := by
  induction ds generalizing cs with
  | nil => rw [List.append_nil]; rfl
  | cons name ds ih =>
    have hname := h name List.mem_cons_self
    obtain ⟨⟨hempty, hdot, hdots, -⟩, -⟩ := validName_iff.mp hname
    rw [pushComponents, if_neg (by simp [hempty, hdot]), if_neg hdots, show validateName name = .ok () from hname]
    show pushComponents (cs ++ [name]) ds = _
    rw [ih fun n hn => h n (List.mem_cons_of_mem _ hn), List.append_assoc]
    rfl

theorem splitSlash_append (p q : String) :
    splitSlash (p ++ "/" ++ q) = splitSlash p ++ splitSlash q := by
  unfold splitSlash
  rw [← List.map_append]
  congr 1
  rw [String.toList_append, String.toList_append]
  show List.splitOnP (· == '/') (p.toList ++ ['/'] ++ q.toList) = _
  rw [List.append_assoc]
  exact List.splitOnP_append_cons _ _ (by simp)

/-- Splitting a canonical path gives its components, behind the empty part before the slash. -/
theorem splitSlash_joinPath (h : Canonical cs) (hne : cs ≠ []) :
    splitSlash (joinPath cs) = "" :: cs := by
  unfold splitSlash
  rw [toList_joinPath hne, splitOn_pathChars h, List.map_cons, map_ofList_toList]

theorem splitSlash_slash : splitSlash "/" = ["", ""] := by decide

/-- The parts of a canonical path push its components. -/
theorem pushComponents_joinPath {ds : List String} (h : Canonical ds) :
    pushComponents cs (splitSlash (joinPath ds)) = .ok (cs ++ ds) := by
  by_cases hnil : ds = []
  · subst hnil
    rw [joinPath_nil, splitSlash_slash, List.append_nil]
    rfl
  · rw [splitSlash_joinPath h hnil]
    exact pushComponents_valid h

/-! ## Canonical paths as strings -/

/-- A base that `normalize_path` takes: absolute, without NUL. -/
def ValidBase (base : String) : Prop := base.toList.head? = some '/' ∧ '\x00' ∉ base.toList

theorem head_joinPath (cs : List String) : (joinPath cs).toList.head? = some '/' := by
  unfold joinPath
  rw [String.toList_ofList]
  rfl

theorem nul_notMem_joinPath (h : Canonical cs) : '\x00' ∉ (joinPath cs).toList := by
  by_cases hnil : cs = []
  · subst hnil
    rw [toList_joinPath_nil]
    decide
  · rw [toList_joinPath hnil]
    unfold pathChars
    rw [List.mem_flatMap]
    rintro ⟨name, hname, hmem⟩
    rcases List.mem_cons.mp hmem with hslash | hmem
    · exact absurd hslash (by decide)
    · exact (validName_iff.mp (h name hname)).1.2.2.2.2 hmem

theorem validBase_joinPath (h : Canonical cs) : ValidBase (joinPath cs) :=
  ⟨head_joinPath cs, nul_notMem_joinPath h⟩

/-- No trailing slash, unless the path is `/`. -/
theorem getLast_joinPath (h : Canonical cs) (hne : cs ≠ []) :
    (joinPath cs).toList.getLast? ≠ some '/' := by
  obtain ⟨front, name, hcs⟩ := (List.eq_nil_or_concat cs).resolve_left hne
  rw [List.concat_eq_append] at hcs
  subst hcs
  have hname := (Canonical.append.mp h).2 name (List.mem_singleton.mpr rfl)
  rw [toList_joinPath hne, pathChars_append]
  have hchars : pathChars [name] = '/' :: name.toList := by simp [pathChars]
  rw [hchars, List.getLast?_append_of_ne_nil _ (by simp), List.getLast?_cons_of_ne_nil hname.toList_ne_nil]
  intro hlast
  exact hname.no_slash (List.mem_of_getLast? hlast)

/-! ## The checks of `normalize_path` -/

/-- What `normalize_path` does behind its checks. -/
theorem pathComponents_eq (hpath : path ≠ "") (hnul : '\x00' ∉ path.toList)
    (hbase : ValidBase base) : pathComponents base path =
      pushComponents [] ((if path.toList.head? ≠ some '/' then splitSlash base else []) ++
        splitSlash path) := by
  unfold pathComponents
  rw [if_neg (by simp [hpath, hnul]), if_neg (by simp [hbase.1, hbase.2]), pushComponents_append]
  split
  · rfl
  · rfl

theorem pathComponents_ok (h : pathComponents base path = .ok cs) :
    path ≠ "" ∧ '\x00' ∉ path.toList ∧ ValidBase base := by
  unfold pathComponents at h
  split at h
  · cases h
  · rename_i hpath
    split at h
    · cases h
    · rename_i hbase
      rw [not_or] at hpath hbase
      exact ⟨hpath.1, hpath.2, not_not.mp hbase.1, hbase.2⟩

theorem normalizePath_ok {r : String} (h : normalizePath base path = .ok r) :
    ∃ cs, pathComponents base path = .ok cs ∧ r = joinPath cs ∧
      (nameBytes r).length ≤ PATH_MAX := by
  unfold normalizePath at h
  cases hcs : pathComponents base path with
  | error e =>
    rw [hcs] at h
    cases h
  | ok cs =>
    rw [hcs] at h
    change (if _ then _ else _) = _ at h
    split at h
    · cases h
    · obtain rfl := Except.ok.inj h
      exact ⟨cs, rfl, rfl, Nat.le_of_not_lt ‹_›⟩

theorem normalizePath_of_components (h : pathComponents base path = .ok cs)
    (hsize : (nameBytes (joinPath cs)).length ≤ PATH_MAX) :
    normalizePath base path = .ok (joinPath cs) := by
  unfold normalizePath
  rw [h]
  exact if_neg (Nat.not_lt.mpr hsize)

/-- A canonical path is its own normal form, from every base. -/
theorem pathComponents_joinPath (h : Canonical cs) (hbase : ValidBase base) :
    pathComponents base (joinPath cs) = .ok cs := by
  have hne : joinPath cs ≠ "" := by
    intro hempty
    have hhead := head_joinPath cs
    rw [hempty] at hhead
    cases hhead
  rw [pathComponents_eq hne (nul_notMem_joinPath h) hbase, if_neg (by simp [head_joinPath]),
    List.nil_append, pushComponents_joinPath h, List.nil_append]

theorem validBase_slash : ValidBase "/" := joinPath_nil ▸ validBase_joinPath .nil

theorem canonicalPath_eq_ok :
    canonicalPath path = .ok cs ↔
      pathComponents "/" path = .ok cs ∧ (nameBytes (joinPath cs)).length ≤ PATH_MAX := by
  unfold canonicalPath
  cases hcs : pathComponents "/" path with
  | error e => exact ⟨(nomatch ·), fun ⟨h, _⟩ => nomatch h⟩
  | ok cs' =>
    show (if _ then _ else _) = _ ↔ _
    constructor
    · intro h
      split at h
      · cases h
      · obtain rfl := Except.ok.inj h
        exact ⟨rfl, Nat.not_lt.mp ‹_›⟩
    · rintro ⟨heq, hsize⟩
      obtain rfl := Except.ok.inj heq
      exact if_neg (Nat.not_lt.mpr hsize)

theorem canonicalPath_joinPath (h : canonicalPath path = .ok cs) :
    canonicalPath (joinPath cs) = .ok cs :=
  canonicalPath_eq_ok.mpr ⟨pathComponents_joinPath (canonicalPath_canonical h) validBase_slash,
    (canonicalPath_eq_ok.mp h).2⟩

/-- What a component of a normal form is. -/
structure NormalName (name : String) : Prop where
  nonempty : name ≠ ""
  not_dot : name ≠ "."
  not_dots : name ≠ ".."
  no_slash : '/' ∉ name.toList
  no_nul : '\x00' ∉ name.toList
  short : (nameBytes name).length ≤ NAME_MAX

/-- The parts a path is normalised from: those of the base come first if the path is relative. -/
def pathParticles (base path : String) : List String :=
  (if path.toList.head? ≠ some '/' then splitSlash base else []) ++ splitSlash path

/-- **The normal form.** A result starts with `/`, is at most `PATH_MAX` bytes long, has no
trailing slash unless it is `/`, and its components are the stack of the parts, all of them
normal names; normalising it again, from any valid base, gives it back. -/
theorem normalizePath_normal {base path r : String} (h : normalizePath base path = .ok r) :
    r.toList.head? = some '/' ∧ (nameBytes r).length ≤ PATH_MAX ∧
      (r ≠ "/" → r.toList.getLast? ≠ some '/') ∧
      (∃ cs, cs = (pathParticles base path).foldl stackStep [] ∧
        (∀ name ∈ cs, NormalName name) ∧ r = joinPath cs ∧
        splitSlash r = if r = "/" then ["", ""] else "" :: cs) ∧
      ∀ b, ValidBase b → normalizePath b r = .ok r := by
  obtain ⟨cs, hcs, rfl, hsize⟩ := normalizePath_ok h
  have hcanonical := pathComponents_canonical hcs
  obtain ⟨hpath, hnul, hbase⟩ := pathComponents_ok hcs
  rw [pathComponents_eq hpath hnul hbase] at hcs
  refine ⟨head_joinPath cs, hsize, fun hne => ?_, ⟨cs, pushComponents_eq_foldl hcs, fun name hname => ?_,
    rfl, ?_⟩, fun b hb => ?_⟩
  · exact getLast_joinPath hcanonical fun hnil => hne ((joinPath_eq_slash hcanonical).mpr hnil)
  · obtain ⟨⟨hempty, hdot, hdots, hslash, hnul⟩, hshort⟩ := validName_iff.mp (hcanonical name hname)
    exact ⟨hempty, hdot, hdots, hslash, hnul, hshort⟩
  · by_cases hnil : cs = []
    · subst hnil
      rw [joinPath_nil, if_pos rfl]
      exact splitSlash_slash
    · rw [if_neg fun heq => hnil ((joinPath_eq_slash hcanonical).mp heq)]
      exact splitSlash_joinPath hcanonical hnil
  · exact normalizePath_of_components (pathComponents_joinPath hcanonical hb) hsize

/-- `/usr//./bin/../lib` from `/home`. -/
theorem normalizePath_normal_usr : normalizePath "/home" "/usr//./bin/../lib" = .ok "/usr/lib" ∧
    normalizePath "/home" "/usr/lib" = .ok "/usr/lib" := by
  have hfirst : normalizePath "/home" "/usr//./bin/../lib" = .ok "/usr/lib" := by decide +kernel
  exact ⟨hfirst, (normalizePath_normal hfirst).2.2.2.2 "/home" ⟨by decide +kernel, by decide +kernel⟩⟩

/-! ## One step after another -/

theorem head_append_slash {p : String} (hp : p ≠ "") (q : String) :
    (p ++ "/" ++ q).toList.head? = p.toList.head? := by
  rw [String.toList_append, String.toList_append]
  cases hlist : p.toList with
  | nil => exact absurd (String.toList_inj.mp hlist) hp
  | cons c cs => rfl

/-- The components behind a first step are those of the whole path. -/
theorem pathComponents_step {p q : String} (hq : q ≠ "") (hrelative : q.toList.head? ≠ some '/')
    (h : pathComponents base p = .ok cs) :
    pathComponents (joinPath cs) q = pathComponents base (p ++ "/" ++ q) := by
  have hcanonical := pathComponents_canonical h
  obtain ⟨hp, hnul, hbase⟩ := pathComponents_ok h
  have hpq : p ++ "/" ++ q ≠ "" := by
    intro hempty
    have := congrArg String.toList hempty
    simp at this
  by_cases hqnul : '\x00' ∈ q.toList
  · -- both steps see the NUL first
    have hmem : '\x00' ∈ (p ++ "/" ++ q).toList := by
      rw [String.toList_append]
      exact List.mem_append_right _ hqnul
    unfold pathComponents
    rw [if_pos (.inr hqnul), if_pos (.inr hmem)]
  · have hmem : '\x00' ∉ (p ++ "/" ++ q).toList := by
      rw [String.toList_append, String.toList_append]
      simp [hnul, hqnul]
    rw [pathComponents_eq hp hnul hbase] at h
    rw [pathComponents_eq hq hqnul (validBase_joinPath hcanonical), pathComponents_eq hpq hmem hbase,
      if_pos hrelative, head_append_slash hp, splitSlash_append, ← List.append_assoc,
      pushComponents_append, pushComponents_append, h, pushComponents_joinPath hcanonical]
    rfl

section Shell

variable {F : Type} [FileSystem F]

/-- `cd` of the shell: the new working directory, if it changes. -/
def changeDirectory (v : Vfs F) (cwd args : String) : Option String :=
  let target := if args = "" then "/" else args
  match normalizePath cwd target with
  | .error _ => none
  | .ok path =>
    match v.metadata path with
    | .ok metadata => if metadata.kind = .directory then some path else none
    | .error _ => none

/-- The path of a shell command, from its trimmed argument `raw`. -/
def requiredPath (cwd raw : String) : Option String :=
  if raw = "" then none
  else
    match normalizePath cwd raw with
    | .ok path => some path
    | .error _ => none

theorem changeDirectory_some {v : Vfs F} {cwd args c : String} (hargs : args ≠ "")
    (h : changeDirectory v cwd args = some c) : normalizePath cwd args = .ok c := by
  unfold changeDirectory at h
  rw [if_neg hargs] at h
  dsimp only at h
  split at h
  · cases h
  · rename_i path hpath
    split at h
    · split at h
      · rw [hpath, Option.some.inj h]
      · cases h
    · cases h

end Shell

/-- **Two steps are one.** A path resolved from the normal form of `p` is `p/q` resolved at once,
errors included; so a shell command after a `cd` names what it names on the joined path. -/
theorem normalizePath_step {F : Type} [FileSystem F] (v : Vfs F) {b p q c : String} (hq : q ≠ "")
    (hrelative : q.toList.head? ≠ some '/') (h : normalizePath b p = .ok c) :
    normalizePath c q = normalizePath b (p ++ "/" ++ q) ∧
      ∀ cwd, changeDirectory v b p = some cwd →
        requiredPath cwd q = requiredPath b (p ++ "/" ++ q) := by
  obtain ⟨cs, hcs, hc, -⟩ := normalizePath_ok h
  have hstep : normalizePath c q = normalizePath b (p ++ "/" ++ q) := by
    rw [hc]
    unfold normalizePath
    rw [pathComponents_step hq hrelative hcs]
  refine ⟨hstep, fun cwd hcwd => ?_⟩
  have hsame : cwd = c :=
    Except.ok.inj ((changeDirectory_some (pathComponents_ok hcs).1 hcwd).symm.trans h)
  have hpq : p ++ "/" ++ q ≠ "" := by
    intro hempty
    have := congrArg String.toList hempty
    simp at this
  unfold requiredPath
  rw [if_neg hq, if_neg hpq, hsame, hstep]

/-- From `/home`, going to `a/../b` and then naming `../c`. -/
theorem normalizePath_step_home : normalizePath "/home" "a/../b" = .ok "/home/b" ∧
    normalizePath "/home/b" "../c" = normalizePath "/home" ("a/../b" ++ "/" ++ "../c") := by
  have hfirst : normalizePath "/home" "a/../b" = .ok "/home/b" := by decide +kernel
  exact ⟨hfirst, (normalizePath_step (Vfs.new RamFs.new) (by decide) (by decide +kernel) hfirst).1⟩

end GenericKernel.VfsCore
