import GenericKernel.Lib.RangeTable
import GenericKernel.Lib.Word

/-!
# The kernel heap (`kernel/src/mm/heap.rs`)

`HeapState` keeps the free byte ranges of one heap area in an array of
`maxFreeRanges` slots. Every `assert!` and `expect` of the source is an error
of type `HeapPanic`; a panic stops the kernel, so no state survives it.
`free_bytes -= size` and `free_len - 1` are plain subtractions: the ranges
taken out are inside the list, so neither wraps.
-/

namespace GenericKernel.Mm

open GenericKernel.Lib

/-- Slots of the free-range table. -/
def maxFreeRanges : Nat := 256

/-- A heap byte range `[start, stop)`. -/
abbrev Range := Span

/-- The assertions and expectations of the heap. -/
inductive HeapPanic
  | initializedTwice
  | addressOverflow
  | emptyHeap
  | metadataExhausted
  | deallocationBeforeInit
  | deallocationOverflow
  | deallocationOutside
  | doubleFree
  | counterOverflow
  | counterCorrupted
  deriving DecidableEq, Repr

/-- `core::alloc::Layout`: a size and a power-of-two alignment whose rounded
size fits `isize`. -/
structure Layout where
  size : Nat
  align : Nat
  align_pow : isPowerOfTwo align = true
  size_fits : size + (align - 1) < 2 ^ 63
  deriving DecidableEq

/-- Bytes a layout takes in the heap; a zero-sized one still takes a byte. -/
def Layout.bytes (layout : Layout) : Nat := max layout.size 1

@[ext] structure HeapState where
  initialized : Bool
  start : Nat
  stop : Nat
  free : Vector Range maxFreeRanges
  freeLen : Nat
  freeBytes : Nat
  deriving DecidableEq

namespace HeapState

def empty : HeapState where
  initialized := false
  start := 0
  stop := 0
  free := Vector.replicate maxFreeRanges ⟨0, 0⟩
  freeLen := 0
  freeBytes := 0

/-- The used part of the `free` array. -/
def freeRanges (self : HeapState) : List Range := self.free.toList.take self.freeLen

def init (self : HeapState) (start size : Nat) : Except HeapPanic HeapState :=
  if self.initialized = true then .error .initializedTwice
  else
    match checkedAdd start size with
    | none => .error .addressOverflow
    | some stop =>
        if size = 0 then .error .emptyHeap
        else
          .ok { self with
            initialized := true
            start := start
            stop := stop
            free := self.free.setIfInBounds 0 ⟨start, stop⟩
            freeLen := 1
            freeBytes := size }

/-- `insert`: fails, without effect, when every slot is taken. -/
def insert (self : HeapState) (index : Nat) (range : Range) : Option HeapState :=
  if self.freeLen = maxFreeRanges then none
  else
    some { self with
      free := insertAt self.free self.freeLen index range
      freeLen := self.freeLen + 1 }

def remove (self : HeapState) (index : Nat) : HeapState :=
  { self with
    free := removeAt self.free self.freeLen index
    freeLen := self.freeLen - 1 }

/-- `free[index].start = start` -/
def setFreeStart (self : HeapState) (index start : Nat) : HeapState :=
  { self with free := self.free.setIfInBounds index { self.free[index]! with start := start } }

/-- `free[index].end = stop` -/
def setFreeStop (self : HeapState) (index stop : Nat) : HeapState :=
  { self with free := self.free.setIfInBounds index { self.free[index]! with stop := stop } }

/-- `insert(..).expect("kernel heap free-range metadata exhausted")` -/
def insertExpect (self : HeapState) (index : Nat) (range : Range) : Except HeapPanic HeapState :=
  match self.insert index range with
  | none => .error .metadataExhausted
  | some self => .ok self

/-- The match of `allocate` that takes `[start, stop)` out of `free[index]`. -/
def split (self : HeapState) (index : Nat) (region : Range) (start stop : Nat) :
    Except HeapPanic HeapState :=
  match decide (region.start < start), decide (stop < region.stop) with
  | false, false => .ok (self.remove index)
  | false, true => .ok (self.setFreeStart index stop)
  | true, false => .ok (self.setFreeStop index start)
  | true, true => (self.setFreeStop index start).insertExpect (index + 1) ⟨stop, region.stop⟩

/-- The allocation loop over the remaining indices. An address overflow ends
the whole search (`?`); a middle split is skipped while the table is full. -/
def allocateLoop (self : HeapState) (size alignment : Nat) :
    List Nat → Except HeapPanic (Option Nat × HeapState)
  | [] => .ok (none, self)
  | index :: rest =>
      let region := self.free[index]!
      match alignUp region.start alignment with
      | none => .ok (none, self)
      | some start =>
          match checkedAdd start size with
          | none => .ok (none, self)
          | some stop =>
              if region.stop < stop then allocateLoop self size alignment rest
              else if region.start < start ∧ stop < region.stop ∧
                  self.freeLen = maxFreeRanges then
                allocateLoop self size alignment rest
              else
                match self.split index region start stop with
                | .error panic => .error panic
                | .ok self => .ok (some start, { self with freeBytes := self.freeBytes - size })

def allocate (self : HeapState) (layout : Layout) : Except HeapPanic (Option Nat × HeapState) :=
  if self.initialized = false then .ok (none, self)
  else self.allocateLoop layout.bytes layout.align (List.range self.freeLen)

/-- The coalescing match of `deallocate`. -/
def coalesce (self : HeapState) (index start stop : Nat) : Except HeapPanic HeapState :=
  let mergeLeft := 0 < index ∧ self.free[index - 1]!.stop = start
  let mergeRight := index < self.freeLen ∧ self.free[index]!.start = stop
  match decide mergeLeft, decide mergeRight with
  | true, true => .ok ((self.setFreeStop (index - 1) self.free[index]!.stop).remove index)
  | true, false => .ok (self.setFreeStop (index - 1) stop)
  | false, true => .ok (self.setFreeStart index start)
  | false, false => self.insertExpect index ⟨start, stop⟩

/-- The part of `deallocate` behind the range checks. -/
def giveBack (self : HeapState) (start stop size : Nat) : Except HeapPanic HeapState :=
  let index := seekSlot self.free self.freeLen start self.freeLen 0
  if 0 < index ∧ start < self.free[index - 1]!.stop then .error .doubleFree
  else if index < self.freeLen ∧ self.free[index]!.start < stop then .error .doubleFree
  else
    match self.coalesce index start stop with
    | .error panic => .error panic
    | .ok self =>
        match checkedAdd self.freeBytes size with
        | none => .error .counterOverflow
        | some freeBytes =>
            let self := { self with freeBytes := freeBytes }
            if self.stop - self.start < self.freeBytes then .error .counterCorrupted
            else .ok self

def deallocate (self : HeapState) (start : Nat) (layout : Layout) : Except HeapPanic HeapState :=
  if self.initialized = false then .error .deallocationBeforeInit
  else
    match checkedAdd start layout.bytes with
    | none => .error .deallocationOverflow
    | some stop =>
        if start < self.start ∨ self.stop < stop then .error .deallocationOutside
        else self.giveBack start stop layout.bytes

end HeapState

end GenericKernel.Mm
