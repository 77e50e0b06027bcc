import GenericKernel.Fs.InodeTable

/-!
# The extent search is exact

`find_extent` collects the extents of the other files, sorts them by start and
walks over them with a candidate. For extents inside the device it returns the
least start of a run of free sectors, and fails if and only if there is no such
run (`findExtentTable_spec`), as long as none of the sums it forms wraps
(`walkSums`). The candidate moves by less than `count + 2^32` per extent, so for
a file they never do (`searchSums_lt`).
-/

namespace GenericKernel.Fs

open GenericKernel.Lib

namespace DiskInode

/-- First sector of the extent. -/
def first (e : DiskInode) : Nat := e.startSector.toNat

/-- Sectors of the extent. -/
def sectors (e : DiskInode) : Nat := e.sectorCount.toNat

/-- A file that owns sectors. -/
def HasExtent (e : DiskInode) : Prop := e.kind = 1 ∧ e.sectorCount ≠ 0

instance (e : DiskInode) : Decidable e.HasExtent := inferInstanceAs (Decidable (_ ∧ _))

theorem sectors_lt (e : DiskInode) : e.sectors < 2 ^ 32 := e.sectorCount.toNat_lt

theorem HasExtent.sectors_pos {e : DiskInode} (h : e.HasExtent) : 0 < e.sectors := by
  refine Nat.pos_of_ne_zero fun hzero => h.2 ?_
  exact UInt32.toNat_inj.mp hzero

end DiskInode

/-- A run of `count` sectors of the data area, free of the extents of all files
but one. -/
structure FreeRun (sectors : Nat) (T : Table) (exclude count start : Nat) : Prop where
  low : DATA_START ≤ start
  high : start + count ≤ sectors
  free : ∀ i ∈ inodeNumbers, i ≠ exclude → (T i).HasExtent →
    start + count ≤ (T i).first ∨ (T i).first + (T i).sectors ≤ start

/-- Every extent ends inside the device. -/
def ExtentsIn (sectors : Nat) (T : Table) : Prop :=
  ∀ i ∈ inodeNumbers, (T i).HasExtent → (T i).first + (T i).sectors ≤ sectors

/-! ## The walk -/

/-- An extent of a sorted list, inside the device. -/
structure Plain (sectors : Nat) (x : Nat × Nat) : Prop where
  le : x.1 ≤ x.2
  short : x.2 ≤ x.1 + 2 ^ 32
  high : x.2 ≤ sectors

/-- A start at or after `candidate` that is free of the listed extents. -/
def FreeOf (count sectors candidate : Nat) (l : List (Nat × Nat)) (a : Nat) : Prop :=
  candidate ≤ a ∧ a + count ≤ sectors ∧ ∀ x ∈ l, a + count ≤ x.1 ∨ x.2 ≤ a

variable {count sectors : Nat} {T : Table}

/-- Passing over an extent that leaves too small a gap loses no start. -/
theorem freeOf_cons {candidate : Nat} {x : Nat × Nat} {l : List (Nat × Nat)}
    (hgap : x.1 < candidate + count) (a : Nat) :
    FreeOf count sectors candidate (x :: l) a ↔ FreeOf count sectors (max candidate x.2) l a := by
  unfold FreeOf
  constructor
  · intro ⟨hcandidate, hhigh, hfree⟩
    have hx := (hfree x List.mem_cons_self).resolve_left (by omega)
    exact ⟨by omega, hhigh, fun y hy => hfree y (List.mem_cons_of_mem _ hy)⟩
  · intro ⟨hcandidate, hhigh, hfree⟩
    refine ⟨by omega, hhigh, fun y hy => ?_⟩
    rcases List.mem_cons.mp hy with rfl | hy
    · exact .inr (by omega)
    · exact hfree y hy

/-- The sums `candidate + count` that the walk forms. -/
def walkSums (count : Nat) : Nat → List (Nat × Nat) → List Nat
  | candidate, [] => [candidate + count]
  | candidate, (start, stop) :: rest =>
      (candidate + count) ::
        if candidate + count ≤ start then [] else walkSums count (max candidate stop) rest

theorem walkSums_lt {bound : Nat} (l : List (Nat × Nat)) : ∀ {candidate : Nat},
    (∀ x ∈ l, Plain sectors x) → candidate + l.length * (count + 2 ^ 32) + count < bound →
    ∀ sum ∈ walkSums count candidate l, sum < bound := by
  induction l with
  | nil =>
      intro candidate _ hbound sum hsum
      rw [List.length_nil, Nat.zero_mul, Nat.add_zero] at hbound
      rwa [walkSums, List.mem_singleton.mp hsum] at *
  | cons x l ih =>
      intro candidate hplain hbound sum hsum
      obtain ⟨start, stop⟩ := x
      rw [List.length_cons, Nat.succ_mul] at hbound
      rw [walkSums] at hsum
      rcases List.mem_cons.mp hsum with rfl | hsum
      · omega
      · by_cases hgap : candidate + count ≤ start
        · rw [if_pos hgap] at hsum
          exact nomatch hsum
        · rw [if_neg hgap] at hsum
          have hshort : stop ≤ start + 2 ^ 32 := (hplain _ List.mem_cons_self).short
          exact ih (fun y hy => hplain y (List.mem_cons_of_mem _ hy)) (by omega) sum hsum

/-- **The walk** stops at the least free start, or finds none. -/
theorem firstGap_spec (l : List (Nat × Nat)) :
    ∀ {candidate : Nat}, l.Pairwise (fun x y => x.1 ≤ y.1) → (∀ x ∈ l, Plain sectors x) →
    (∀ sum ∈ walkSums count candidate l, sum < wordSize) →
    match firstGap count sectors candidate l with
    | some a => IsLeast {a | FreeOf count sectors candidate l a} a
    | none => ∀ a, ¬ FreeOf count sectors candidate l a := by
  induction l with
  | nil =>
      intro candidate _ _ hsums
      rw [firstGap, wrappingAdd_of_lt (hsums _ List.mem_cons_self)]
      by_cases hfit : candidate + count ≤ sectors
      · rw [if_pos hfit]
        exact ⟨⟨le_refl _, hfit, fun x hx => nomatch hx⟩, fun b hb => hb.1⟩
      · rw [if_neg hfit]
        intro a ha
        have := ha.1
        have := ha.2.1
        omega
  | cons x l ih =>
      intro candidate hsorted hplain hsums
      obtain ⟨start, stop⟩ := x
      have hx := hplain _ List.mem_cons_self
      obtain ⟨hfirst, hsorted'⟩ := List.pairwise_cons.mp hsorted
      rw [walkSums, List.forall_mem_cons] at hsums
      obtain ⟨hword, hrest⟩ := hsums
      rw [firstGap, wrappingAdd_of_lt hword]
      by_cases hgap : candidate + count ≤ start
      · rw [if_pos hgap]
        have hle : start ≤ stop := hx.le
        have hhigh : stop ≤ sectors := hx.high
        refine ⟨⟨le_refl _, by omega, fun y hy => .inl ?_⟩, fun b hb => hb.1⟩
        rcases List.mem_cons.mp hy with rfl | hy
        · exact hgap
        · exact le_trans hgap (hfirst y hy)
      · rw [if_neg hgap] at hrest ⊢
        have hnext := ih hsorted' (fun y hy => hplain y (List.mem_cons_of_mem _ hy)) hrest
        simp only [freeOf_cons (show (start, stop).1 < candidate + count from by
          show start < _; omega)]
        exact hnext

/-! ## The search -/

/-- The extents the search collects, on paper. -/
def usedTable (T : Table) (exclude : Nat) : List Nat → List (Nat × Nat)
  | [] => []
  | inode :: rest =>
      if inode = exclude then usedTable T exclude rest
      else if (T inode).HasExtent then
        ((T inode).first, wrappingAdd (T inode).first (T inode).sectors) ::
          usedTable T exclude rest
      else usedTable T exclude rest

theorem usedExtents_reads {E : Env Sector BlockError} {d : Disk} (hd : E.inv d)
    (hsize : DATA_START ≤ E.size) (hT : Shows d T) (exclude : Nat) (numbers : List Nat)
    (hnumbers : ∀ i ∈ numbers, InTable i) :
    ∃ k, Reads E k (usedExtents exclude numbers) d (.ok (usedTable T exclude numbers)) := by
  induction numbers with
  | nil => exact ⟨0, Reads.pure []⟩
  | cons inode rest ih =>
      obtain ⟨k, hrest⟩ := ih fun i hi => hnumbers i (List.mem_cons_of_mem _ hi)
      have hinode := hnumbers inode List.mem_cons_self
      have hread := readInode_reads hd hsize hinode
      rw [hT inode hinode] at hread
      unfold usedExtents usedTable
      by_cases hskip : inode = exclude
      · rw [if_pos hskip, if_pos hskip]
        exact ⟨k, hrest⟩
      · rw [if_neg hskip, if_neg hskip]
        refine ⟨1 + (k + 0), hread.bind (hrest.bind ?_ rfl) rfl⟩
        by_cases hextent : (T inode).HasExtent
        · rw [if_pos hextent]
          refine Eq.mpr (congrArg (fun p => Reads E 0 p d _) (if_pos hextent)) ?_
          exact Reads.pure _
        · rw [if_neg hextent]
          refine Eq.mpr (congrArg (fun p => Reads E 0 p d _) (if_neg hextent)) ?_
          exact Reads.pure _

theorem mem_usedTable {exclude : Nat} {x : Nat × Nat} {numbers : List Nat} :
    x ∈ usedTable T exclude numbers ↔ ∃ i ∈ numbers, i ≠ exclude ∧ (T i).HasExtent ∧
      x = ((T i).first, wrappingAdd (T i).first (T i).sectors) := by
  induction numbers with
  | nil => simp [usedTable]
  | cons inode rest ih =>
      unfold usedTable
      by_cases hskip : inode = exclude
      · rw [if_pos hskip, ih]
        simp [hskip]
      · rw [if_neg hskip]
        by_cases hextent : (T inode).HasExtent
        · rw [if_pos hextent, List.mem_cons, ih]
          simp [hskip, hextent]
        · rw [if_neg hextent, ih]
          simp [hextent]

theorem length_usedTable_le (T : Table) (exclude : Nat) (numbers : List Nat) :
    (usedTable T exclude numbers).length ≤ numbers.length := by
  induction numbers with
  | nil => exact le_refl _
  | cons inode rest ih =>
      unfold usedTable
      rw [List.length_cons]
      split
      · omega
      · split
        · rw [List.length_cons]
          omega
        · omega

/-- `find_extent`, on paper. -/
def findExtentTable (sectors : Nat) (T : Table) (count exclude : Nat) : Except VfsError Nat :=
  if count = 0 then .ok 0
  else
    match firstGap count sectors DATA_START
        ((usedTable T exclude inodeNumbers).mergeSort fun a b => a.1 ≤ b.1) with
    | some start => .ok start
    | none => .error .noSpace

theorem findExtent_reads {E : Env Sector BlockError} {d : Disk} {T : Table} (hd : E.inv d)
    (hsize : DATA_START ≤ E.size) (hT : Shows d T) (sectors count exclude : Nat) :
    ∃ k, Reads E k (findExtent sectors count exclude) d
      (findExtentTable sectors T count exclude) := by
  obtain ⟨k, hused⟩ := usedExtents_reads hd hsize hT exclude inodeNumbers
    fun i hi => inTable_of_mem hi
  unfold findExtent findExtentTable
  by_cases hcount : count = 0
  · rw [if_pos hcount, if_pos hcount]
    exact ⟨0, Reads.pure 0⟩
  · rw [if_neg hcount, if_neg hcount]
    refine ⟨k, hused.bind ?_ (Nat.add_zero k)⟩
    cases firstGap count sectors DATA_START
        ((usedTable T exclude inodeNumbers).mergeSort fun a b => a.1 ≤ b.1) with
    | some start => exact Reads.pure start
    | none => exact Reads.throw _

/-- The list the walk runs over. -/
theorem sortedTable_plain (hn : sectors < wordSize) (hT : ExtentsIn sectors T) (exclude : Nat) :
    ∀ x ∈ (usedTable T exclude inodeNumbers).mergeSort fun a b => a.1 ≤ b.1, Plain sectors x := by
  intro x hx
  obtain ⟨i, hi, _, hextent, rfl⟩ := mem_usedTable.mp (List.mem_mergeSort.mp hx)
  have hhigh := hT i hi hextent
  have hshort := (T i).sectors_lt
  have hword := wrappingAdd_of_lt (lt_of_le_of_lt hhigh hn)
  exact ⟨by dsimp only; omega, by dsimp only; omega, by dsimp only; omega⟩

/-- The walk's free starts are the free runs. -/
theorem freeOf_iff_freeRun (hn : sectors < wordSize) (hT : ExtentsIn sectors T)
    (exclude count a : Nat) :
    FreeOf count sectors DATA_START
      ((usedTable T exclude inodeNumbers).mergeSort fun a b => a.1 ≤ b.1) a ↔
    FreeRun sectors T exclude count a := by
  have hword : ∀ i ∈ inodeNumbers, (T i).HasExtent →
      wrappingAdd (T i).first (T i).sectors = (T i).first + (T i).sectors :=
    fun i hi hextent => wrappingAdd_of_lt (lt_of_le_of_lt (hT i hi hextent) hn)
  constructor
  · intro ⟨hlow, hhigh, hfree⟩
    refine ⟨hlow, hhigh, fun i hi hne hextent => ?_⟩
    have := hfree _ (List.mem_mergeSort.mpr (mem_usedTable.mpr ⟨i, hi, hne, hextent, rfl⟩))
    rwa [hword i hi hextent] at this
  · intro h
    refine ⟨h.low, h.high, fun x hx => ?_⟩
    obtain ⟨i, hi, hne, hextent, rfl⟩ := mem_usedTable.mp (List.mem_mergeSort.mp hx)
    rw [hword i hi hextent]
    exact h.free i hi hne hextent

/-- The extents the walk runs over, sorted by start. -/
def sortedTable (T : Table) (exclude : Nat) : List (Nat × Nat) :=
  (usedTable T exclude inodeNumbers).mergeSort fun a b => a.1 ≤ b.1

/-- The sums that a search for `count` sectors forms. -/
def searchSums (T : Table) (exclude count : Nat) : List Nat :=
  walkSums count DATA_START (sortedTable T exclude)

theorem sortedTable_pairwise (T : Table) (exclude : Nat) :
    (sortedTable T exclude).Pairwise fun x y => x.1 ≤ y.1 := by
  refine List.Pairwise.imp (fun h => of_decide_eq_true h) (List.pairwise_mergeSort ?_ ?_ _)
  · intro a b c hab hbc
    exact decide_eq_true (le_trans (of_decide_eq_true hab) (of_decide_eq_true hbc))
  · intro a b
    rcases le_total a.1 b.1 with h | h <;> simp [h]

/-- No length of 64 bits asks for so many sectors that a sum wraps. -/
theorem searchSums_lt (hn : sectors < wordSize) (hT : ExtentsIn sectors T) (exclude : Nat)
    (hcount : count ≤ 2 ^ 55) : ∀ sum ∈ searchSums T exclude count, sum < wordSize := by
  have hlength : (sortedTable T exclude).length ≤ 63 := by
    rw [sortedTable, List.length_mergeSort]
    exact length_usedTable_le T exclude inodeNumbers
  refine walkSums_lt _ (sortedTable_plain hn hT exclude) ?_
  have hmul := Nat.mul_le_mul_right (count + 2 ^ 32) hlength
  rw [wordSize]
  show 17 + _ + count < _
  omega

/-- **The extent search is exact**: it returns the least free run, and fails when
there is none. -/
theorem findExtentTable_exact (hn : sectors < wordSize) (hT : ExtentsIn sectors T) (exclude : Nat)
    (hpos : 0 < count) (hsums : ∀ sum ∈ searchSums T exclude count, sum < wordSize) :
    match findExtentTable sectors T count exclude with
    | .ok a => IsLeast {a | FreeRun sectors T exclude count a} a
    | .error e => e = .noSpace ∧ ∀ a, ¬ FreeRun sectors T exclude count a := by
  have hspec := firstGap_spec _ (sortedTable_pairwise T exclude) (sortedTable_plain hn hT exclude)
    hsums
  unfold sortedTable at hspec
  simp only [freeOf_iff_freeRun hn hT] at hspec
  unfold findExtentTable
  rw [if_neg (Nat.ne_of_gt hpos)]
  revert hspec
  cases firstGap count sectors DATA_START
      ((usedTable T exclude inodeNumbers).mergeSort fun a b => a.1 ≤ b.1) with
  | some a => exact id
  | none => exact fun h => ⟨rfl, h⟩

/-- The search for a file. The bound on `count` is the largest number of sectors a
length of 64 bits can ask for. -/
theorem findExtentTable_spec (hn : sectors < wordSize) (hT : ExtentsIn sectors T) (exclude : Nat)
    (hpos : 0 < count) (hcount : count ≤ 2 ^ 55) :
    match findExtentTable sectors T count exclude with
    | .ok a => IsLeast {a | FreeRun sectors T exclude count a} a
    | .error e => e = .noSpace ∧ ∀ a, ¬ FreeRun sectors T exclude count a :=
  findExtentTable_exact hn hT exclude hpos (searchSums_lt hn hT exclude hcount)

/-- Where no other file has an extent, the least run starts at the data area. -/
theorem isLeast_dataStart {sectors : Nat} {T : Table} {exclude count : Nat}
    (hnone : ∀ i ∈ inodeNumbers, i ≠ exclude → ¬ (T i).HasExtent)
    (hfit : DATA_START + count ≤ sectors) :
    IsLeast {a | FreeRun sectors T exclude count a} DATA_START :=
  ⟨⟨le_refl _, hfit, fun i hi hne hextent => absurd hextent (hnone i hi hne)⟩, fun _ ha => ha.low⟩

/-- The least free run starts at or before the file's own extent, or past it. -/
theorem least_freeRun_before_or_past {exclude a own size : Nat}
    (ha : IsLeast {a | FreeRun sectors T exclude count a} a) (hlow : DATA_START ≤ own)
    (hown : ∀ i ∈ inodeNumbers, i ≠ exclude → (T i).HasExtent →
      own + size ≤ (T i).first ∨ (T i).first + (T i).sectors ≤ own) : a ≤ own ∨ own + size ≤ a := by
  by_contra hnot
  have hrun : FreeRun sectors T exclude count a := ha.1
  -- The run that starts at `own` would be free as well, and it starts earlier.
  have hearlier : FreeRun sectors T exclude count own := by
    refine ⟨hlow, by have := hrun.high; omega, fun i hi hne hextent => ?_⟩
    have h1 := hown i hi hne hextent
    have h2 := hrun.free i hi hne hextent
    have h3 := hextent.sectors_pos
    omega
  have := ha.2 hearlier
  omega

end GenericKernel.Fs
