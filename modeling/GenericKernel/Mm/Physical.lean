import GenericKernel.Lib.RangeTable
import GenericKernel.Lib.Word

/-!
# The physical memory manager (`kernel-core/src/physical.rs`)

`PhysicalMemory N` keeps two fixed arrays of regions, `managed` and `free`,
each with its own counter, and two byte counters. Words are naturals: every
sum and product of the source is checked or stays below an address already
known to be a word. Fallible methods on `&mut self` return the result together
with the state they leave behind, so that an error after a partial update
would be visible.
-/

namespace GenericKernel.Mm

open GenericKernel.Lib

/-- A physical byte range `[start, stop)`. -/
abbrev Region := Span

/-- Bytes in a page. -/
def pageSize : Nat := 4096

theorem isPowerOfTwo_pageSize : isPowerOfTwo pageSize = true := by decide

theorem pageSize_le_wordSize : pageSize ≤ wordSize := by rw [wordSize]; decide

inductive PhysicalMemoryError
  | reversedRange
  | overlapOrUnsorted
  | capacity
  | invalidRequest
  | invalidFree
  | overflow
  deriving DecidableEq, Repr

/-- The allocator: sorted managed and free ranges in fixed arrays. -/
@[ext] structure PhysicalMemory (N : Nat) where
  managed : Vector Region N
  managedLen : Nat
  free : Vector Region N
  freeLen : Nat
  totalBytes : Nat
  freeBytes : Nat
  deriving DecidableEq

namespace PhysicalMemory

variable {N : Nat}

/-- The allocator before any region is pushed. -/
def empty : PhysicalMemory N where
  managed := Vector.replicate N default
  managedLen := 0
  free := Vector.replicate N default
  freeLen := 0
  totalBytes := 0
  freeBytes := 0

/-- The used part of the `managed` array. -/
def managedRegions (self : PhysicalMemory N) : List Region :=
  self.managed.toList.take self.managedLen

/-- The used part of the `free` array. -/
def freeRegions (self : PhysicalMemory N) : List Region := self.free.toList.take self.freeLen

def usedBytes (self : PhysicalMemory N) : Nat := self.totalBytes - self.freeBytes

/-- Account `bytes` more managed and free bytes. -/
def countInitial (self : PhysicalMemory N) (bytes : Nat) :
    Except PhysicalMemoryError (PhysicalMemory N) :=
  match checkedAdd self.totalBytes bytes with
  | none => .error .overflow
  | some totalBytes =>
      match checkedAdd self.freeBytes bytes with
      | none => .error .overflow
      | some freeBytes =>
          .ok { self with totalBytes := totalBytes, freeBytes := freeBytes }

/-- Append one initial region, or grow the last one when they touch. -/
def pushInitial (self : PhysicalMemory N) (region : Region) :
    Except PhysicalMemoryError (PhysicalMemory N) :=
  let bytes := region.stop - region.start
  if 0 < self.managedLen ∧ self.managed[self.managedLen - 1]!.stop = region.start then
    countInitial
      { self with
        managed := self.managed.setIfInBounds (self.managedLen - 1)
          { self.managed[self.managedLen - 1]! with stop := region.stop }
        free := self.free.setIfInBounds (self.freeLen - 1)
          { self.free[self.freeLen - 1]! with stop := region.stop } } bytes
  else if self.managedLen = N ∨ self.freeLen = N then
    .error .capacity
  else
    countInitial
      { self with
        managed := self.managed.setIfInBounds self.managedLen region
        managedLen := self.managedLen + 1
        free := self.free.setIfInBounds self.freeLen region
        freeLen := self.freeLen + 1 } bytes

/-- The loop of `new`: `previousEnd` is the end of the last input region. -/
def newLoop : List Region → PhysicalMemory N → Nat →
    Except PhysicalMemoryError (PhysicalMemory N)
  | [], memory, _ => .ok memory
  | region :: regions, memory, previousEnd =>
      if region.stop < region.start then .error .reversedRange
      else if region.start < previousEnd then .error .overlapOrUnsorted
      else
        match alignUp (max region.start pageSize) pageSize with
        | none => .error .overflow
        | some start =>
            let stop := alignDown region.stop pageSize
            if stop ≤ start then newLoop regions memory region.stop
            else
              match memory.pushInitial ⟨start, stop⟩ with
              | .error e => .error e
              | .ok memory => newLoop regions memory region.stop

def new (regions : List Region) : Except PhysicalMemoryError (PhysicalMemory N) :=
  newLoop regions empty 0

/-- Some managed region contains `[start, stop)`. -/
def isManaged (self : PhysicalMemory N) (start stop : Nat) : Bool :=
  (self.managed.toList.take self.managedLen).any fun region =>
    decide (region.start ≤ start) && decide (stop ≤ region.stop)

def insertFree (self : PhysicalMemory N) (index : Nat) (region : Region) :
    Except PhysicalMemoryError Unit × PhysicalMemory N :=
  if self.freeLen = N then (.error .capacity, self)
  else
    (.ok (), { self with
      free := insertAt self.free self.freeLen index region
      freeLen := self.freeLen + 1 })

/-- The source guards the reset of the vacated slot by `free_len < N`; the
guarded and the plain write differ only out of bounds. -/
def removeFree (self : PhysicalMemory N) (index : Nat) : PhysicalMemory N :=
  { self with
    free := removeAt self.free self.freeLen index
    freeLen := self.freeLen - 1 }

/-- `free[index].start = start` -/
def setFreeStart (self : PhysicalMemory N) (index start : Nat) : PhysicalMemory N :=
  { self with free := self.free.setIfInBounds index { self.free[index]! with start := start } }

/-- `free[index].end = stop` -/
def setFreeStop (self : PhysicalMemory N) (index stop : Nat) : PhysicalMemory N :=
  { self with free := self.free.setIfInBounds index { self.free[index]! with stop := stop } }

/-- The body of the allocation loop once `[start, stop)` fits `free[index]`. -/
def allocateAt (self : PhysicalMemory N) (index : Nat) (region : Region) (start stop : Nat) :
    Except PhysicalMemoryError (Option Nat) × PhysicalMemory N :=
  let size := stop - start
  let hasFront := region.start < start
  let hasBack := stop < region.stop
  if hasFront ∧ hasBack ∧ self.freeLen = N then (.error .capacity, self)
  else
    let split : Except PhysicalMemoryError Unit × PhysicalMemory N :=
      match decide hasFront, decide hasBack with
      | false, false => (.ok (), self.removeFree index)
      | false, true => (.ok (), self.setFreeStart index stop)
      | true, false => (.ok (), self.setFreeStop index start)
      | true, true => (self.setFreeStop index start).insertFree (index + 1) ⟨stop, region.stop⟩
    match split with
    | (.error e, self) => (.error e, self)
    | (.ok _, self) => (.ok (some start), { self with freeBytes := self.freeBytes - size })

/-- `[start, stop)` as the loop computes it for one free region: the first
aligned block of `size` bytes, if it fits. -/
def fit (size alignment : Nat) (region : Region) : Option Span :=
  match alignUp region.start alignment with
  | none => none
  | some start =>
      match checkedAdd start size with
      | none => none
      | some stop => if region.stop < stop then none else some ⟨start, stop⟩

/-- The allocation loop over the remaining indices. -/
def allocateLoop (self : PhysicalMemory N) (size alignment : Nat) :
    List Nat → Except PhysicalMemoryError (Option Nat) × PhysicalMemory N
  | [] => (.ok none, self)
  | index :: rest =>
      let region := self.free[index]!
      match fit size alignment region with
      | none => allocateLoop self size alignment rest
      | some block => self.allocateAt index region block.start block.stop

def allocatePages (self : PhysicalMemory N) (pages alignPages : Nat) :
    Except PhysicalMemoryError (Option Nat) × PhysicalMemory N :=
  if pages = 0 ∨ alignPages = 0 ∨ isPowerOfTwo alignPages = false then
    (.error .invalidRequest, self)
  else
    match checkedMul pages pageSize with
    | none => (.error .overflow, self)
    | some size =>
        match checkedMul alignPages pageSize with
        | none => (.error .overflow, self)
        | some alignment => self.allocateLoop size alignment (List.range self.freeLen)

def allocateFrame (self : PhysicalMemory N) :
    Except PhysicalMemoryError (Option Nat) × PhysicalMemory N :=
  self.allocatePages 1 1

/-- The coalescing match of `free_pages`. -/
def coalesceFree (self : PhysicalMemory N) (index start stop : Nat) :
    Except PhysicalMemoryError Unit × PhysicalMemory N :=
  let mergeLeft := 0 < index ∧ self.free[index - 1]!.stop = start
  let mergeRight := index < self.freeLen ∧ self.free[index]!.start = stop
  match decide mergeLeft, decide mergeRight with
  | true, true =>
      (.ok (), (self.setFreeStop (index - 1) self.free[index]!.stop).removeFree index)
  | true, false => (.ok (), self.setFreeStop (index - 1) stop)
  | false, true => (.ok (), self.setFreeStart index start)
  | false, false => self.insertFree index ⟨start, stop⟩

/-- The part of `free_pages` behind the argument checks: find the neighbours,
reject overlaps, coalesce and count. -/
def freeRange (self : PhysicalMemory N) (start stop size : Nat) :
    Except PhysicalMemoryError Unit × PhysicalMemory N :=
  let index := seekSlot self.free self.freeLen start self.freeLen 0
  if 0 < index ∧ start < self.free[index - 1]!.stop then (.error .invalidFree, self)
  else if index < self.freeLen ∧ self.free[index]!.start < stop then (.error .invalidFree, self)
  else
    match self.coalesceFree index start stop with
    | (.error e, self) => (.error e, self)
    | (.ok _, self) =>
        match checkedAdd self.freeBytes size with
        | none => (.error .overflow, self)
        | some freeBytes =>
            let self := { self with freeBytes := freeBytes }
            if self.totalBytes < self.freeBytes then (.error .invalidFree, self)
            else (.ok (), self)

def freePages (self : PhysicalMemory N) (start pages : Nat) :
    Except PhysicalMemoryError Unit × PhysicalMemory N :=
  if pages = 0 ∨ start < pageSize ∨ start % pageSize ≠ 0 then (.error .invalidFree, self)
  else
    match checkedMul pages pageSize with
    | none => (.error .overflow, self)
    | some size =>
        match checkedAdd start size with
        | none => (.error .overflow, self)
        | some stop =>
            if stop % pageSize ≠ 0 ∨ self.isManaged start stop = false then
              (.error .invalidFree, self)
            else self.freeRange start stop size

end PhysicalMemory

end GenericKernel.Mm
