import Mathlib.Data.List.Induction
import Mathlib.Data.List.Infix
import GenericKernel.Fs.Block

/-!
# Pathnames (`crates/kernel-core/src/vfs.rs`)

`normalizePath` reduces a path to a canonical string, `/` followed by its components. Below it
`joinPath` is the string of a list of components and `Canonical` says which lists occur; the other
string functions of the VFS (`split`, `rsplit_once`, `trim_start_matches`) take such a string apart
into the components again.
-/

namespace GenericKernel.VfsCore

def NAME_MAX : Nat := 255

def PATH_MAX : Nat := 4096

/-- `text.split('/')`. -/
def splitSlash (text : String) : List String := (text.toList.splitOn '/').map String.ofList

def validateName (name : String) : Except VfsError Unit :=
  if name = "" ∨ name = "." ∨ name = ".." ∨ '/' ∈ name.toList ∨ '\x00' ∈ name.toList then
    .error .invalidName
  else if NAME_MAX < (nameBytes name).length then .error .nameTooLong
  else .ok ()

/-- The loop of `push_components` over the parts of a path. -/
def pushComponents : List String → List String → Except VfsError (List String)
  | components, [] => .ok components
  | components, component :: rest =>
    if component = "" ∨ component = "." then pushComponents components rest
    else if component = ".." then pushComponents components.dropLast rest
    else do
      validateName component
      pushComponents (components ++ [component]) rest

/-- `apply_components` does what `push_components` does. -/
def applyComponents (components : List String) (path : String) : Except VfsError (List String) :=
  pushComponents components (splitSlash path)

/-- The string `normalize_path` builds of its components. -/
def joinPath (components : List String) : String :=
  String.ofList ('/' :: ['/'].intercalate (components.map String.toList))

/-- The components of `normalize_path`. -/
def pathComponents (base path : String) : Except VfsError (List String) :=
  if path = "" ∨ '\x00' ∈ path.toList then .error .invalidPath
  else if base.toList.head? ≠ some '/' ∨ '\x00' ∈ base.toList then .error .invalidPath
  else do
    let components ←
      if path.toList.head? ≠ some '/' then pushComponents [] (splitSlash base) else pure []
    applyComponents components path

def normalizePath (base path : String) : Except VfsError String := do
  let normalized := joinPath (← pathComponents base path)
  if PATH_MAX < (nameBytes normalized).length then .error .nameTooLong else .ok normalized

/-- `path.trim_start_matches('/').split('/')`. -/
def pathParts (path : String) : List String :=
  ((path.toList.dropWhile (· == '/')).splitOn '/').map String.ofList

/-- `path.rsplit_once('/')`. -/
def rsplitSlash (path : String) : Option (String × String) :=
  match path.toList.reverse.dropWhile (· != '/') with
  | [] => none
  | _ :: front =>
    some (String.ofList front.reverse,
      String.ofList (path.toList.reverse.takeWhile (· != '/')).reverse)

/-! ## Canonical paths -/

/-- A component of a canonical path. -/
def ValidName (name : String) : Prop := validateName name = .ok ()

instance (name : String) : Decidable (ValidName name) := by unfold ValidName; infer_instance

variable {name : String} {cs ds : List String}

theorem validName_iff : ValidName name ↔
    (name ≠ "" ∧ name ≠ "." ∧ name ≠ ".." ∧ '/' ∉ name.toList ∧ '\x00' ∉ name.toList) ∧
      (nameBytes name).length ≤ NAME_MAX := by
  unfold ValidName validateName
  split
  · rename_i hbad
    constructor
    · intro h
      cases h
    · rintro ⟨⟨hempty, hdot, hdots, hslash, hnul⟩, -⟩
      rcases hbad with h | h | h | h | h
      · exact absurd h hempty
      · exact absurd h hdot
      · exact absurd h hdots
      · exact absurd h hslash
      · exact absurd h hnul
  · rename_i hgood
    simp only [not_or] at hgood
    split
    · rename_i hlong
      constructor
      · intro h
        cases h
      · exact fun h => absurd h.2 (Nat.not_le.mpr hlong)
    · rename_i hshort
      exact ⟨fun _ => ⟨hgood, Nat.not_lt.mp hshort⟩, fun _ => rfl⟩

theorem ValidName.no_slash (h : ValidName name) : '/' ∉ name.toList :=
  (validName_iff.mp h).1.2.2.2.1

theorem ValidName.toList_ne_nil (h : ValidName name) : name.toList ≠ [] := by
  intro hnil
  refine (validName_iff.mp h).1.1 (String.toList_inj.mp ?_)
  rw [hnil]
  rfl

/-- The components of a canonical path. -/
def Canonical (components : List String) : Prop := ∀ name ∈ components, ValidName name

instance (components : List String) : Decidable (Canonical components) :=
  inferInstanceAs (Decidable (∀ name ∈ components, ValidName name))

theorem Canonical.nil : Canonical [] := fun _ h => nomatch h

theorem Canonical.append : Canonical (cs ++ ds) ↔ Canonical cs ∧ Canonical ds :=
  List.forall_mem_append

theorem Canonical.dropLast (h : Canonical cs) : Canonical cs.dropLast :=
  fun name hname => h name (List.dropLast_subset cs hname)

theorem pushComponents_canonical {parts cs' : List String} (hcs : Canonical cs)
    (h : pushComponents cs parts = .ok cs') : Canonical cs' := by
  induction parts generalizing cs with
  | nil =>
    obtain rfl := Except.ok.inj h
    exact hcs
  | cons part parts ih =>
    unfold pushComponents at h
    split at h
    · exact ih hcs h
    · split at h
      · exact ih hcs.dropLast h
      · cases hvalid : validateName part with
        | error e =>
          rw [hvalid] at h
          cases h
        | ok u =>
          rw [hvalid] at h
          refine ih (Canonical.append.mpr ⟨hcs, fun name hname => ?_⟩) h
          obtain rfl := List.mem_singleton.mp hname
          exact hvalid

theorem pathComponents_canonical {base path : String} (h : pathComponents base path = .ok cs) :
    Canonical cs := by
  unfold pathComponents at h
  split at h
  · cases h
  · split at h
    · cases h
    · split at h
      · cases hbase : pushComponents [] (splitSlash base) with
        | error e =>
          rw [hbase] at h
          cases h
        | ok base' =>
          rw [hbase] at h
          exact pushComponents_canonical (pushComponents_canonical .nil hbase) h
      · exact pushComponents_canonical .nil h

/-- A path that is accepted, as its components. -/
def canonicalPath (path : String) : Except VfsError (List String) := do
  let components ← pathComponents "/" path
  if PATH_MAX < (nameBytes (joinPath components)).length then .error .nameTooLong
  else .ok components

theorem normalizePath_eq (path : String) :
    normalizePath "/" path = (canonicalPath path).map joinPath := by
  unfold normalizePath canonicalPath
  cases pathComponents "/" path with
  | error e => rfl
  | ok cs =>
    show (if _ then _ else _) = Except.map joinPath (if _ then _ else _)
    split <;> rfl

theorem canonicalPath_canonical {path : String} (h : canonicalPath path = .ok cs) :
    Canonical cs := by
  unfold canonicalPath at h
  cases hcs : pathComponents "/" path with
  | error e =>
    rw [hcs] at h
    cases h
  | ok cs' =>
    rw [hcs] at h
    change (if _ then _ else _) = _ at h
    split at h
    · cases h
    · obtain rfl := Except.ok.inj h
      exact pathComponents_canonical hcs

/-! ## The string of a canonical path -/

/-- The characters of a path below the root: a slash before each component. -/
def pathChars (components : List String) : List Char :=
  components.flatMap fun name => '/' :: name.toList

theorem pathChars_append (cs ds : List String) :
    pathChars (cs ++ ds) = pathChars cs ++ pathChars ds :=
  List.flatMap_append

theorem toList_joinPath (h : cs ≠ []) : (joinPath cs).toList = pathChars cs := by
  unfold joinPath
  rw [String.toList_ofList]
  induction cs with
  | nil => exact absurd rfl h
  | cons name cs ih =>
    cases cs with
    | nil => simp [pathChars, List.intercalate]
    | cons name' cs =>
      have hrest := ih (List.cons_ne_nil _ _)
      simp only [List.map_cons] at hrest ⊢
      rw [List.intercalate_cons_cons]
      show '/' :: (name.toList ++ ['/'] ++ _) = ('/' :: name.toList) ++ pathChars (name' :: cs)
      rw [← hrest]
      simp

theorem toList_joinPath_nil : (joinPath []).toList = ['/'] := String.toList_ofList

theorem joinPath_nil : joinPath [] = "/" := String.toList_inj.mp toList_joinPath_nil

/-- The slashes of a path separate its components. -/
theorem splitOn_pathChars (h : Canonical cs) :
    (pathChars cs).splitOn '/' = [] :: cs.map String.toList := by
  induction cs using List.reverseRecOn with
  | nil => rfl
  | append_singleton cs name ih =>
    obtain ⟨hcs, hname⟩ := Canonical.append.mp h
    have hslash := (hname name (List.mem_singleton.mpr rfl)).no_slash
    rw [pathChars_append, show pathChars [name] = '/' :: name.toList by simp [pathChars]]
    show List.splitOnP (· == '/') _ = _
    rw [List.splitOnP_append_cons _ _ (by rfl)]
    show (pathChars cs).splitOn '/' ++ name.toList.splitOn '/' = _
    rw [ih hcs, List.splitOn_eq_singleton hslash, List.map_append]
    rfl

/-- Components are determined by their characters. -/
theorem pathChars_inj (hcs : Canonical cs) (hds : Canonical ds) (h : pathChars cs = pathChars ds) :
    cs = ds := by
  have hsplit := splitOn_pathChars hcs
  rw [h, splitOn_pathChars hds] at hsplit
  exact (List.map_injective_iff.mpr (fun _ _ => String.toList_inj.mp) (List.cons.inj hsplit).2).symm

/-- A path below a directory goes on with the components after it. -/
theorem pathChars_prefix (hcs : Canonical cs) (hds : Canonical ds) {rest : List Char}
    (h : pathChars ds = pathChars cs ++ '/' :: rest) : cs <+: ds := by
  have hsplit := splitOn_pathChars hds
  rw [h] at hsplit
  change List.splitOnP (· == '/') _ = _ at hsplit
  rw [List.splitOnP_append_cons _ _ (by rfl)] at hsplit
  change (pathChars cs).splitOn '/' ++ _ = _ at hsplit
  rw [splitOn_pathChars hcs, List.cons_append] at hsplit
  have hmap := (List.cons.inj hsplit).2
  have hpre : cs.map String.toList <+: ds.map String.toList := ⟨_, hmap⟩
  exact (List.prefix_map_iff_of_injective fun _ _ => String.toList_inj.mp).mp hpre

theorem map_ofList_toList (cs : List String) : (cs.map String.toList).map String.ofList = cs := by
  rw [List.map_map]
  conv_rhs => rw [← List.map_id cs]
  exact List.map_congr_left fun name _ => String.ofList_toList

theorem joinPath_eq_slash (h : Canonical cs) : joinPath cs = "/" ↔ cs = [] := by
  constructor
  · intro heq
    by_contra hne
    have hchars := toList_joinPath hne
    rw [heq] at hchars
    cases cs with
    | nil => exact hne rfl
    | cons name cs =>
      have hname := (h name List.mem_cons_self).toList_ne_nil
      cases hl : name.toList with
      | nil => exact hname hl
      | cons c chars => simp [pathChars, hl] at hchars
  · rintro rfl
    exact joinPath_nil

theorem joinPath_inj (hcs : Canonical cs) (hds : Canonical ds) (h : joinPath cs = joinPath ds) :
    cs = ds := by
  by_cases hc : cs = []
  · subst hc
    rw [joinPath_nil] at h
    exact ((joinPath_eq_slash hds).mp h.symm).symm
  · have hd : ds ≠ [] := by
      rintro rfl
      rw [joinPath_nil] at h
      exact hc ((joinPath_eq_slash hcs).mp h)
    refine pathChars_inj hcs hds ?_
    rw [← toList_joinPath hc, ← toList_joinPath hd, h]

/-- `resolve_inode` visits the components. -/
theorem pathParts_joinPath (h : Canonical cs) (hne : cs ≠ []) : pathParts (joinPath cs) = cs := by
  cases cs with
  | nil => exact absurd rfl hne
  | cons name cs =>
    have hname := h name List.mem_cons_self
    have hdrop : (pathChars (name :: cs)).dropWhile (· == '/') = name.toList ++ pathChars cs := by
      show ('/' :: (name.toList ++ pathChars cs)).dropWhile (· == '/') = _
      rw [List.dropWhile_cons_of_pos (by rfl)]
      cases hl : name.toList with
      | nil => exact absurd hl hname.toList_ne_nil
      | cons c chars =>
        refine List.dropWhile_cons_of_neg ?_
        intro hc
        refine hname.no_slash ?_
        rw [hl, ← beq_iff_eq.mp hc]
        exact List.mem_cons_self
    have hsplit := splitOn_pathChars h
    rw [show pathChars (name :: cs) = [] ++ '/' :: (name.toList ++ pathChars cs) from rfl] at hsplit
    change List.splitOnP (· == '/') _ = _ at hsplit
    rw [List.splitOnP_append_cons _ _ (by rfl)] at hsplit
    unfold pathParts
    rw [toList_joinPath (List.cons_ne_nil _ _), hdrop]
    rw [show (name.toList ++ pathChars cs).splitOn '/' = (name :: cs).map String.toList from
      (List.cons.inj hsplit).2, map_ofList_toList]

/-- `resolve_parent` splits off the last component. -/
theorem rsplitSlash_joinPath (h : Canonical (cs ++ [name])) :
    rsplitSlash (joinPath (cs ++ [name])) = some (String.ofList (pathChars cs), name) := by
  have hslash := ((Canonical.append.mp h).2 name (List.mem_singleton.mpr rfl)).no_slash
  have hchars : (joinPath (cs ++ [name])).toList.reverse =
      name.toList.reverse ++ '/' :: (pathChars cs).reverse := by
    rw [toList_joinPath (by simp), pathChars_append]
    simp [pathChars]
  have hall : ∀ c ∈ name.toList.reverse, (c != '/') = true := by
    intro c hc
    rw [bne_iff_ne]
    rintro rfl
    exact hslash (List.mem_reverse.mp hc)
  unfold rsplitSlash
  rw [hchars, List.dropWhile_append_of_pos hall, List.takeWhile_append_of_pos hall,
    List.dropWhile_cons_of_neg (by simp), List.takeWhile_cons_of_neg (by simp)]
  simp [String.ofList_toList]

end GenericKernel.VfsCore
