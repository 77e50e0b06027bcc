import GenericKernel.Mm.UserPages

/-!
# User-range validation (`user_range_accessible` in `kernel/src/arch/memory.rs`)

The guard between user pointers and the kernel's copies walks the active page
tables once for each page of the range. Memory is arbitrary: a function from the
address of an entry to its value.

* **model** — `pageTableEntryPointer`, `userPageAccessible`, `userRangeAccessible`;
* **walk** — `Grants` is the four-level walk of one byte, by recursion on the
  levels below a table;
* **result** — `userRangeAccessible_exact`: true exactly when every byte of the
  range is granted.

`validateUserRange` and `copyToUser` (`kernel/src/mm/mod.rs`) are its callers.
-/

namespace GenericKernel.Paging

open GenericKernel.Lib GenericKernel.Mm
open GenericKernel.Paging.BootTables (Canonical)

/-! ## The model -/

def WRITABLE : UInt64 := (1 : UInt64) <<< 1

def USER : UInt64 := (1 : UInt64) <<< 2

/-- The frame in CR3. -/
structure PhysFrame where
  start : Nat
  aligned : pageSize ∣ start

/-- Entries are read from virtual memory, through the direct map. -/
abbrev EntryMemory := Nat → UInt64

def pageTableEntryPointer (offset table index : Nat) : Fallible String Nat := do
  .reject (512 ≤ index ∨ table % pageSize ≠ 0) "invalid page-table entry"
  let address ← .ofOption "page-table direct-map overflow"
    ((checkedAdd offset table).bind fun base => checkedAdd base (index * 8))
  virtAddr address
  .ok address

/-- The loop over the levels, with the index at each level. -/
def walkLevels (memory : EntryMemory) (offset : Nat) (writable : Bool) :
    List (Nat × Nat) → Nat → Fallible String Bool
  | [], _ => .ok false
  | (level, index) :: rest, table =>
      match pageTableEntryPointer offset table index with
      | .error _ => .ok false
      | .panic => .panic
      | .ok pointer =>
          let entry := memory pointer
          if entry &&& PRESENT = 0 ∨ entry &&& USER = 0 then .ok false
          else if writable = true ∧ entry &&& WRITABLE = 0 then .ok false
          else if level = 3 ∨ (1 ≤ level ∧ entry &&& HUGE ≠ 0) then .ok true
          else if (entry &&& ADDRESS).toNat = 0 then .ok false
          else walkLevels memory offset writable rest (entry &&& ADDRESS).toNat

def userPageAccessible (memory : EntryMemory) (offset root virtualAddress : Nat)
    (writable : Bool) : Fallible String Bool :=
  walkLevels memory offset writable
    [(0, virtualAddress >>> 39 &&& 0x1ff), (1, virtualAddress >>> 30 &&& 0x1ff),
     (2, virtualAddress >>> 21 &&& 0x1ff), (3, virtualAddress >>> 12 &&& 0x1ff)] root

/-- The loop over the pages; the sum is a `checked_add`. -/
def accessibleLoop (memory : EntryMemory) (offset root lastPage : Nat) (writable : Bool)
    (page : Nat) : Fallible String Bool := do
  let accessible ← userPageAccessible memory offset root page writable
  if accessible = false then .ok false
  else if page = lastPage then .ok true
  else if page + pageSize < wordSize then
    accessibleLoop memory offset root lastPage writable (page + pageSize)
  else .ok false
termination_by wordSize - page
decreasing_by
  have : pageSize = 4096 := rfl
  omega

def userRangeAccessible (memory : EntryMemory) (activeRoot : PhysFrame) (offset address length : Nat)
    (writable : Bool) : Fallible String Bool :=
  if length = 0 then .ok (address < USER_ADDRESS_LIMIT)
  else
    match checkedAdd address (length - 1) with
    | none => .ok false
    | some last =>
        if USER_ADDRESS_LIMIT ≤ address ∨ USER_ADDRESS_LIMIT ≤ last then .ok false
        else
          accessibleLoop memory offset activeRoot.start (alignDown last pageSize) writable
            (alignDown address pageSize)

/-! ## The walk of one byte -/

/-- The bits of an address that select an entry of a table with `below` levels
of tables under it. -/
def tableIndex (a below : Nat) : Nat := a / 2 ^ (12 + 9 * below) % 512

section Walk

variable (memory : EntryMemory) (offset : Nat) (writable : Bool) (a : Nat)

/-- The entry of `a` in `table` can be read and has the permissions. -/
structure Permits (below table : Nat) : Prop where
  inWord : offset + table + 8 * tableIndex a below < wordSize
  canonical : Canonical (offset + table + 8 * tableIndex a below)
  present : memory (offset + table + 8 * tableIndex a below) &&& PRESENT ≠ 0
  user : memory (offset + table + 8 * tableIndex a below) &&& USER ≠ 0
  writable : writable = true →
    memory (offset + table + 8 * tableIndex a below) &&& WRITABLE ≠ 0

/-- The walk of `a` from `table` down to a 4 KiB entry or the first large page
below the root. -/
def Grants : Nat → Nat → Prop
  | 0, table => Permits memory offset writable a 0 table
  | below + 1, table =>
      Permits memory offset writable a (below + 1) table ∧
        let entry := memory (offset + table + 8 * tableIndex a (below + 1))
        (below < 2 ∧ entry &&& HUGE ≠ 0) ∨
          (¬ (below < 2 ∧ entry &&& HUGE ≠ 0) ∧ (entry &&& ADDRESS).toNat ≠ 0 ∧
            Grants below (entry &&& ADDRESS).toNat)

end Walk

section Correct

variable {memory : EntryMemory} {offset : Nat} {writable : Bool} {a : Nat}

theorem tableIndex_lt (a below : Nat) : tableIndex a below < 512 := Nat.mod_lt _ (by decide)

/-- The bytes of a page take the same walk. -/
theorem tableIndex_page (a below : Nat) :
    tableIndex (a / pageSize * pageSize) below = tableIndex a below := by
  have hsplit : 2 ^ (12 + 9 * below) = pageSize * 2 ^ (9 * below) := by
    rw [Nat.pow_add]
    rfl
  unfold tableIndex
  rw [hsplit, ← Nat.div_div_eq_div_mul, ← Nat.div_div_eq_div_mul,
    Nat.mul_div_cancel _ (by decide)]

theorem grants_congr {a a' : Nat} (h : ∀ below, tableIndex a below = tableIndex a' below) :
    ∀ below table, Grants memory offset writable a below table ↔
      Grants memory offset writable a' below table := by
  have hpermits : ∀ below table, Permits memory offset writable a below table ↔
      Permits memory offset writable a' below table := by
    intro below table
    constructor
    · rintro ⟨h₁, h₂, h₃, h₄, h₅⟩
      rw [h below] at h₁ h₂ h₃ h₄ h₅
      exact ⟨h₁, h₂, h₃, h₄, h₅⟩
    · rintro ⟨h₁, h₂, h₃, h₄, h₅⟩
      rw [← h below] at h₁ h₂ h₃ h₄ h₅
      exact ⟨h₁, h₂, h₃, h₄, h₅⟩
  intro below
  induction below with
  | zero => exact hpermits 0
  | succ below ih =>
      intro table
      simp only [Grants, hpermits, h (below + 1), ih]

theorem shift_and_mask (a k : Nat) : a >>> (12 + 9 * k) &&& 0x1ff = tableIndex a k := by
  have hmask : 0x1ff = 2 ^ 9 - 1 := rfl
  rw [Nat.shiftRight_eq_div_pow, hmask, Nat.and_two_pow_sub_one_eq_mod]
  rfl

/-- The address of an entry, when it is an address at all. -/
theorem pageTableEntryPointer_eq_ok {table index p : Nat} (htable : pageSize ∣ table)
    (hindex : index < 512) : pageTableEntryPointer offset table index = .ok p ↔
      p = offset + table + 8 * index ∧ p < wordSize ∧ Canonical p := by
  have hvalid : ¬ (512 ≤ index ∨ table % pageSize ≠ 0) := by
    rw [Nat.mod_eq_zero_of_dvd htable]
    omega
  unfold pageTableEntryPointer
  rw [Fallible.reject, if_neg hvalid, Fallible.ok_bind]
  simp only [Fallible.bind_eq_ok]
  constructor
  · rintro ⟨address, hsum, _, hvirt, hp⟩
    obtain rfl : address = p := by simpa using hp
    have hcanonical : Canonical address := by
      by_contra hno
      rw [virtAddr, if_neg hno] at hvirt
      cases hvirt
    cases hbase : checkedAdd offset table with
    | none => simp [hbase, Fallible.ofOption] at hsum
    | some base =>
        obtain ⟨rfl, _⟩ := checkedAdd_eq_some.mp hbase
        cases hentry : checkedAdd (offset + table) (index * 8) with
        | none => simp [hbase, hentry, Fallible.ofOption] at hsum
        | some e =>
            obtain ⟨rfl, hlt⟩ := checkedAdd_eq_some.mp hentry
            obtain rfl : offset + table + index * 8 = address := by
              simpa [hbase, hentry, Fallible.ofOption] using hsum
            exact ⟨by omega, hlt, hcanonical⟩
  · rintro ⟨rfl, hlt, hcanonical⟩
    refine ⟨offset + table + 8 * index, ?_, (), virtAddr_ok hcanonical, rfl⟩
    rw [checkedAdd_eq_some.mpr ⟨rfl, by omega⟩, Option.bind_some, Nat.mul_comm,
      checkedAdd_eq_some.mpr ⟨rfl, hlt⟩]
    rfl

/-- One level of the walk. -/
theorem walkLevels_cons {level index table : Nat} {rest : List (Nat × Nat)}
    (htable : pageSize ∣ table) (hindex : index < 512) :
    walkLevels memory offset writable ((level, index) :: rest) table = .ok true ↔
      offset + table + 8 * index < wordSize ∧ Canonical (offset + table + 8 * index) ∧
      memory (offset + table + 8 * index) &&& PRESENT ≠ 0 ∧
      memory (offset + table + 8 * index) &&& USER ≠ 0 ∧
      (writable = true → memory (offset + table + 8 * index) &&& WRITABLE ≠ 0) ∧
      ((level = 3 ∨ (1 ≤ level ∧ memory (offset + table + 8 * index) &&& HUGE ≠ 0)) ∨
        (¬ (level = 3 ∨ (1 ≤ level ∧ memory (offset + table + 8 * index) &&& HUGE ≠ 0)) ∧
          (memory (offset + table + 8 * index) &&& ADDRESS).toNat ≠ 0 ∧
          walkLevels memory offset writable rest
            (memory (offset + table + 8 * index) &&& ADDRESS).toNat = .ok true)) := by
  have hpointer : ∀ p, _ ↔ _ := fun p => @pageTableEntryPointer_eq_ok offset table index p htable hindex
  by_cases hreach : offset + table + 8 * index < wordSize ∧ Canonical (offset + table + 8 * index)
  · rw [walkLevels, (hpointer _).mpr ⟨rfl, hreach⟩]
    dsimp only
    generalize memory (offset + table + 8 * index) = entry
    simp only [hreach.1, hreach.2, true_and]
    by_cases hflags : entry &&& PRESENT = 0 ∨ entry &&& USER = 0
    · rw [if_pos hflags]
      constructor
      · intro h
        cases h
      · rintro ⟨hpresent, huser, _⟩
        exact absurd hflags (not_or.mpr ⟨hpresent, huser⟩)
    rw [if_neg hflags]
    obtain ⟨hpresent, huser⟩ := not_or.mp hflags
    by_cases hwrite : writable = true ∧ entry &&& WRITABLE = 0
    · rw [if_pos hwrite]
      constructor
      · intro h
        cases h
      · rintro ⟨_, _, hallowed, _⟩
        exact absurd hwrite.2 (hallowed hwrite.1)
    rw [if_neg hwrite]
    have hwrite' : writable = true → entry &&& WRITABLE ≠ 0 := fun hw h0 => hwrite ⟨hw, h0⟩
    by_cases hleaf : level = 3 ∨ (1 ≤ level ∧ entry &&& HUGE ≠ 0)
    · rw [if_pos hleaf]
      exact ⟨fun _ => ⟨hpresent, huser, hwrite', .inl hleaf⟩, fun _ => rfl⟩
    rw [if_neg hleaf]
    by_cases hzero : (entry &&& ADDRESS).toNat = 0
    · rw [if_pos hzero]
      constructor
      · intro h
        cases h
      · rintro ⟨_, _, _, h | ⟨_, hne, _⟩⟩
        · exact absurd h hleaf
        · exact absurd hzero hne
    rw [if_neg hzero]
    constructor
    · intro h
      exact ⟨hpresent, huser, hwrite', .inr ⟨hleaf, hzero, h⟩⟩
    · rintro ⟨_, _, _, h | ⟨_, _, h⟩⟩
      · exact absurd h hleaf
      · exact h
  · have hno : walkLevels memory offset writable ((level, index) :: rest) table ≠ .ok true := by
      rw [walkLevels]
      cases hp : pageTableEntryPointer offset table index with
      | ok p =>
          obtain ⟨rfl, h⟩ := (hpointer p).mp hp
          exact absurd h hreach
      | error e => simp
      | panic => simp
    constructor
    · intro h
      exact absurd h hno
    · rintro ⟨hword, hcanonical, _⟩
      exact absurd ⟨hword, hcanonical⟩ hreach

/-- A table address found in an entry is page aligned. -/
theorem pageSize_dvd_address (entry : UInt64) : pageSize ∣ (entry &&& ADDRESS).toNat := by
  have hmask : ADDRESS.toNat = (2 ^ 40 - 1) <<< 12 := rfl
  have hsize : pageSize = 2 ^ 12 := rfl
  rw [UInt64.toNat_and, hmask, hsize, Nat.dvd_iff_mod_eq_zero, ← Nat.and_two_pow_sub_one_eq_mod,
    Nat.and_assoc]
  have hlow : (2 ^ 40 - 1) <<< 12 &&& (2 ^ 12 - 1) = 0 := by decide
  rw [hlow, Nat.and_zero]

/-- The levels of the walk from a table with `below` levels under it. -/
def levelsFrom (a : Nat) : Nat → List (Nat × Nat)
  | 0 => [(3, tableIndex a 0)]
  | below + 1 => (2 - below, tableIndex a (below + 1)) :: levelsFrom a below

/-- The loop over the levels is the walk. -/
theorem walkLevels_eq_true {below : Nat} (hbelow : below ≤ 3) :
    ∀ {table}, pageSize ∣ table →
      (walkLevels memory offset writable (levelsFrom a below) table = .ok true ↔
        Grants memory offset writable a below table) := by
  induction below with
  | zero =>
      intro table htable
      rw [levelsFrom, walkLevels_cons htable (tableIndex_lt a 0), Grants]
      constructor
      · rintro ⟨h₁, h₂, h₃, h₄, h₅, _⟩
        exact ⟨h₁, h₂, h₃, h₄, h₅⟩
      · rintro ⟨h₁, h₂, h₃, h₄, h₅⟩
        exact ⟨h₁, h₂, h₃, h₄, h₅, .inl (.inl rfl)⟩
  | succ below ih =>
      intro table htable
      have hlevel : ∀ p : Prop, (2 - below = 3 ∨ (1 ≤ 2 - below ∧ p)) ↔ (below < 2 ∧ p) := by
        intro p
        have h3 : 2 - below ≠ 3 := by omega
        have h1 : 1 ≤ 2 - below ↔ below < 2 := by omega
        rw [h1]
        simp [h3]
      rw [levelsFrom, walkLevels_cons htable (tableIndex_lt a (below + 1)), Grants, hlevel,
        ih (by omega) (pageSize_dvd_address _)]
      constructor
      · rintro ⟨h₁, h₂, h₃, h₄, h₅, hrest⟩
        exact ⟨⟨h₁, h₂, h₃, h₄, h₅⟩, hrest⟩
      · rintro ⟨⟨h₁, h₂, h₃, h₄, h₅⟩, hrest⟩
        exact ⟨h₁, h₂, h₃, h₄, h₅, hrest⟩

/-- One page: the walk of each of its bytes. -/
theorem userPageAccessible_eq_true {root : Nat} (hroot : pageSize ∣ root) (a : Nat) :
    userPageAccessible memory offset root (a / pageSize * pageSize) writable = .ok true ↔
      Grants memory offset writable a 3 root := by
  have hlevels : userPageAccessible memory offset root (a / pageSize * pageSize) writable =
      walkLevels memory offset writable (levelsFrom (a / pageSize * pageSize) 3) root := by
    unfold userPageAccessible levelsFrom levelsFrom levelsFrom levelsFrom
    rw [← shift_and_mask _ 3, ← shift_and_mask _ 2, ← shift_and_mask _ 1, ← shift_and_mask _ 0]
  rw [hlevels, walkLevels_eq_true le_rfl hroot]
  exact grants_congr (tableIndex_page a) 3 root

/-- One round of the loop over the pages. -/
theorem accessibleLoop_step {root lastPage page : Nat} :
    accessibleLoop memory offset root lastPage writable page = .ok true ↔
      userPageAccessible memory offset root page writable = .ok true ∧
        (page = lastPage ∨ page + pageSize < wordSize ∧
          accessibleLoop memory offset root lastPage writable (page + pageSize) = .ok true ∧
          page ≠ lastPage) := by
  rw [accessibleLoop, Fallible.bind_eq_ok]
  constructor
  · rintro ⟨accessible, hpage, hrest⟩
    cases accessible with
    | false => cases hrest
    | true =>
        refine ⟨hpage, ?_⟩
        rw [if_neg (by simp)] at hrest
        by_cases hend : page = lastPage
        · exact .inl hend
        · rw [if_neg hend] at hrest
          by_cases hword : page + pageSize < wordSize
          · rw [if_pos hword] at hrest
            exact .inr ⟨hword, hrest, hend⟩
          · rw [if_neg hword] at hrest
            cases hrest
  · rintro ⟨hpage, hrest⟩
    refine ⟨true, hpage, ?_⟩
    rw [if_neg (by simp)]
    rcases hrest with hend | ⟨hword, hnext, hend⟩
    · rw [if_pos hend]
    · rw [if_neg hend, if_pos hword]
      exact hnext

/-- The loop covers every page from the first to the last. -/
theorem accessibleLoop_eq_true {root last : Nat} (hlast : last * pageSize < wordSize) (n : Nat) :
    ∀ first, last - first = n → first ≤ last →
      (accessibleLoop memory offset root (last * pageSize) writable (first * pageSize) = .ok true ↔
        ∀ page, first ≤ page → page ≤ last →
          userPageAccessible memory offset root (page * pageSize) writable = .ok true) := by
  have hpos : 0 < pageSize := by decide
  induction n with
  | zero =>
      intro first hn hle
      obtain rfl : first = last := by omega
      rw [accessibleLoop_step]
      constructor
      · intro h page hlo hhi
        obtain rfl : page = first := by omega
        exact h.1
      · intro h
        exact ⟨h first le_rfl le_rfl, .inl rfl⟩
  | succ n ih =>
      intro first hn hle
      have hnext : first * pageSize + pageSize = (first + 1) * pageSize := by
        rw [Nat.add_mul, Nat.one_mul]
      have hbelow : (first + 1) * pageSize ≤ last * pageSize := Nat.mul_le_mul_right _ (by omega)
      have hne : first * pageSize ≠ last * pageSize := by omega
      rw [accessibleLoop_step, hnext, ih (first + 1) (by omega) (by omega)]
      constructor
      · rintro ⟨hfirst, hrest⟩ page hlo hhi
        obtain ⟨_, hrest, _⟩ := hrest.resolve_left hne
        by_cases hpage : page = first
        · rw [hpage]
          exact hfirst
        · exact hrest page (by omega) hhi
      · intro h
        exact ⟨h first le_rfl hle, .inr ⟨by omega, fun page hlo hhi => h page (by omega) hhi, hne⟩⟩

/-- True exactly when the range does not wrap, lies below the user limit, and the
walk from the active root grants every byte of it. -/
theorem userRangeAccessible_exact (memory : EntryMemory) (activeRoot : PhysFrame)
    (offset address length : Nat) (writable : Bool) (hlength : length ≠ 0) :
    userRangeAccessible memory activeRoot offset address length writable = .ok true ↔
      address + (length - 1) < wordSize ∧
      ∀ a, address ≤ a → a < address + length →
        a < USER_ADDRESS_LIMIT ∧ Grants memory offset writable a 3 activeRoot.start := by
  have hlimit : USER_ADDRESS_LIMIT < wordSize := lt_wordSize (by decide)
  have hpos : 0 < pageSize := by decide
  unfold userRangeAccessible
  rw [if_neg hlength]
  by_cases hword : address + (length - 1) < wordSize
  swap
  · rw [checkedAdd_eq_none.mpr (Nat.not_lt.mp hword)]
    simp [hword]
  rw [checkedAdd_eq_some.mpr ⟨rfl, hword⟩]
  dsimp only
  by_cases hbelow : USER_ADDRESS_LIMIT ≤ address ∨ USER_ADDRESS_LIMIT ≤ address + (length - 1)
  · rw [if_pos hbelow]
    constructor
    · intro h
      cases h
    · rintro ⟨_, h⟩
      have := (h address le_rfl (by omega)).1
      have := (h (address + (length - 1)) (by omega) (by omega)).1
      omega
  rw [if_neg hbelow, alignDown_pageSize (by omega), alignDown_pageSize (by omega),
    accessibleLoop_eq_true _ _ _ rfl (Nat.div_le_div_right (by omega))]
  · constructor
    · intro h
      refine ⟨hword, fun a hlo hhi => ⟨by omega, ?_⟩⟩
      rw [← userPageAccessible_eq_true activeRoot.aligned]
      exact h _ (Nat.div_le_div_right hlo) (Nat.div_le_div_right (by omega))
    · rintro ⟨_, h⟩ page hlo hhi
      -- a page of the range has a byte in the range
      have hle : page * pageSize ≤ address + (length - 1) := (Nat.le_div_iff_mul_le hpos).mp hhi
      have hpage : max address (page * pageSize) / pageSize = page := by
        rcases le_total address (page * pageSize) with hstart | hstart
        · rw [max_eq_right hstart, Nat.mul_div_cancel _ hpos]
        · rw [max_eq_left hstart]
          exact le_antisymm hlo ((Nat.le_div_iff_mul_le hpos).mpr hstart)
      have hgrant := (h (max address (page * pageSize)) (le_max_left _ _) (by omega)).2
      rwa [← userPageAccessible_eq_true activeRoot.aligned, hpage] at hgrant
  · have := Nat.div_mul_le_self (address + (length - 1)) pageSize
    omega

end Correct

/-- A frame whose entries all map it again, for the user and writable. -/
def selfMapped : PhysFrame where
  start := 0x1000
  aligned := ⟨1, rfl⟩

theorem userRangeAccessible_exact_selfMapped :
    userRangeAccessible (fun _ => 0x1007) selfMapped 0 12293 5000 true = .ok true ∧
      ∀ a, 12293 ≤ a → a < 12293 + 5000 →
        a < USER_ADDRESS_LIMIT ∧ Grants (fun _ => 0x1007) 0 true a 3 selfMapped.start := by
  have haccessible : userRangeAccessible (fun _ => 0x1007) selfMapped 0 12293 5000 true =
      .ok true := by decide +kernel
  exact ⟨haccessible, ((userRangeAccessible_exact (fun _ => 0x1007) selfMapped 0 12293 5000 true
    (by decide)).mp haccessible).2⟩

/-- The active root is used even when it is frame zero, and an entry address that
is not canonical is a panic: here every entry of every table is present, for the
user, and names a frame other than zero whose address does not overflow. -/
theorem root_unchecked :
    (∃ memory root, root.start = 0 ∧ userRangeAccessible memory root 0 0 1 false = .ok true) ∧
    ∃ memory offset, (∀ p, memory p &&& PRESENT ≠ 0 ∧ memory p &&& USER ≠ 0 ∧
        memory p &&& ADDRESS = 0x1000) ∧
      (∀ index < 512, offset + selfMapped.start + 8 * index < wordSize) ∧
      userRangeAccessible memory selfMapped offset 0 1 false = .panic := by
  have hentry : (0x1007 : UInt64) &&& PRESENT ≠ 0 ∧ (0x1007 : UInt64) &&& USER ≠ 0 ∧
      (0x1007 : UInt64) &&& ADDRESS = 0x1000 := by decide
  refine ⟨⟨fun p => if p = 0 then 0x1007 else 0x87, ⟨0, ⟨0, rfl⟩⟩, rfl, by decide +kernel⟩,
    fun _ => 0x1007, 2 ^ 47, fun _ => hentry, ?_, by decide +kernel⟩
  intro index hindex
  have hword : 2 ^ 47 + 0x1000 + 8 * 512 < wordSize := lt_wordSize (by decide)
  have hstart : selfMapped.start = 0x1000 := rfl
  omega

end GenericKernel.Paging

namespace GenericKernel.Mm

open GenericKernel.Lib GenericKernel.Paging

/-! ## The checks of a system call (`kernel/src/mm/mod.rs`) -/

/-- What validation reads: the page tables, CR3 and the direct-map offset. -/
structure UserSpace where
  memory : EntryMemory
  activeRoot : PhysFrame
  physicalMemoryOffset : Option Nat

def validateUserRange (space : UserSpace) (address length : Nat) (writable : Bool) :
    Fallible String Unit :=
  if length = 0 then .ok ()
  else do
    let offset ← .ofOption "physical memory is not initialized" space.physicalMemoryOffset
    let accessible ←
      userRangeAccessible space.memory space.activeRoot offset address length writable
    .reject (accessible = false)
      (if writable then "invalid userspace write buffer" else "invalid userspace read buffer")

/-- The checks of `copy_to_user`. -/
def copyToUser (space : UserSpace) (address : Nat) (data : List UInt8) (maximum : Nat) :
    Fallible String Unit := do
  .reject (maximum < data.length) "userspace buffer exceeds syscall limit"
  validateUserRange space address data.length true

/-- A user space in which every page is writable. -/
def openSpace : UserSpace := ⟨fun _ => 0x1007, selfMapped, some 0⟩

end GenericKernel.Mm
