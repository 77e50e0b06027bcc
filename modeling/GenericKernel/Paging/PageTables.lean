import GenericKernel.Lib.Program

/-!
# Page-table cloning (`kernel-core/src/page_tables.rs`)

`cloneRoot` deep-copies a four-level table graph through the `TableMemory`
interface. The interface is a trait in the source; here its methods are the
operations `TableOp` of a program, so that the clone can be run on any
implementation and the calls it makes can be looked at. The `&mut` arguments
`ancestors` and `count` are passed through as `CloneState`. `count` stays at
or below `LIMIT`, so it does not overflow.
-/

namespace GenericKernel.Paging

open GenericKernel.Lib

def PRESENT : UInt64 := 1

def HUGE : UInt64 := (1 : UInt64) <<< 7

def ADDRESS : UInt64 := 0x000f_ffff_ffff_f000

inductive CloneError
  | outOfMemory
  | tableLimit
  | invalidFrame
  | invalidHugePage
  | cycle
  deriving DecidableEq, Repr

/-- The methods of `TableMemory`. -/
inductive TableOp
  | allocate
  | release (frame : UInt64)
  | read (frame : UInt64) (index : Nat)
  | write (frame : UInt64) (index : Nat) (entry : UInt64)
  deriving DecidableEq

/-- What each method returns. -/
@[reducible] def TableOp.Reply : TableOp → Type
  | .allocate => Option UInt64
  | .release _ => Unit
  | .read _ _ => UInt64
  | .write _ _ _ => Unit

/-- Code over a `TableMemory`. -/
abbrev TableProg := Prog TableOp.Reply

def allocate : TableProg (Option UInt64) := Prog.perform TableOp.allocate

def release (frame : UInt64) : TableProg Unit := Prog.perform (TableOp.release frame)

def read (frame : UInt64) (index : Nat) : TableProg UInt64 := Prog.perform (TableOp.read frame index)

def write (frame : UInt64) (index : Nat) (entry : UInt64) : TableProg Unit :=
  Prog.perform (TableOp.write frame index entry)

structure OwnedRoot where
  physical : UInt64
  tableFrames : Nat
  deriving DecidableEq, Repr

/-- `ancestors` and `count`. -/
structure CloneState where
  ancestors : Vector UInt64 4
  count : Nat

/-- `0..512`. Irreducible, so that loops over a table are never unrolled. -/
@[irreducible] def tableIndices : List Nat := List.range 512

/-- A non-zero frame address without other bits. -/
def ValidFrame (frame : UInt64) : Prop := ¬ (frame = 0 ∨ frame &&& ~~~ADDRESS ≠ 0)

instance (frame : UInt64) : Decidable (ValidFrame frame) := inferInstanceAs (Decidable (¬ _))

/-- Address bits that must be clear in a 1 GiB (level 3) or 2 MiB leaf. -/
def reservedBits (level : Nat) : UInt64 := if level = 3 then 0x3fff_e000 else 0x1f_e000

/-- The replacement of one entry: leaves and non-present entries stay, a child
table is cloned and linked under the entry's own flags. -/
def cloneEntry (level : Nat) (child : UInt64 → CloneState →
    TableProg (Except CloneError UInt64 × CloneState)) (entry : UInt64) (st : CloneState) :
    TableProg (Except CloneError UInt64 × CloneState) :=
  if entry &&& PRESENT ≠ 0 ∧ 1 < level then
    if entry &&& HUGE ≠ 0 then
      if level = 4 then pure (.error .invalidHugePage, st)
      else if entry &&& reservedBits level ≠ 0 then pure (.error .invalidHugePage, st)
      else pure (.ok entry, st)
    else do
      let (result, st) ← child (entry &&& ADDRESS) st
      match result with
      | .error e => pure (.error e, st)
      | .ok child => pure (.ok ((entry &&& ~~~ADDRESS) ||| child), st)
  else pure (.ok entry, st)

/-- The copy loop over the remaining indices; it ends at the first error. -/
def cloneEntries (level : Nat) (child : UInt64 → CloneState →
    TableProg (Except CloneError UInt64 × CloneState)) (source destination : UInt64) :
    List Nat → CloneState → TableProg (Except CloneError Unit × CloneState)
  | [], st => pure (.ok (), st)
  | index :: rest, st => do
      let entry ← read source index
      let (replacement, st) ← cloneEntry level child entry st
      match replacement with
      | .error e => pure (.error e, st)
      | .ok replacement => do
          write destination index replacement
          cloneEntries level child source destination rest st

/-- An entry `release_tree` descends into. -/
def IsTable (entry : UInt64) : Prop := entry &&& PRESENT ≠ 0 ∧ entry &&& HUGE = 0

instance (entry : UInt64) : Decidable (IsTable entry) := inferInstanceAs (Decidable (_ ∧ _))

/-- Free a table tree, children first. Levels are at least 1 in the source. -/
def releaseTree : Nat → UInt64 → TableProg Unit
  | 0 => fun frame => release frame
  | below + 1 => fun frame => do
      if 1 < below + 1 then
        Prog.forEach (fun index => do
          let entry ← read frame index
          if IsTable entry then releaseTree below (entry &&& ADDRESS) else pure ()) tableIndices
      release frame

/-- Clone one table and everything below it. Levels run from 4 down to 1: the
case of level 0 is never reached. -/
def cloneTable (limit : Nat) :
    Nat → UInt64 → CloneState → TableProg (Except CloneError UInt64 × CloneState)
  | 0 => fun _ st => pure (.error .invalidFrame, st)
  | below + 1 => fun source st =>
      let level := below + 1
      let depth := 4 - level
      if ¬ ValidFrame source then pure (.error .invalidFrame, st)
      else if source ∈ st.ancestors.toList.take depth then pure (.error .cycle, st)
      else
        let st := { st with ancestors := st.ancestors.setIfInBounds depth source }
        if st.count = limit then pure (.error .tableLimit, st)
        else do
          let reply ← allocate
          match reply with
          | none => pure (.error .outOfMemory, st)
          | some destination =>
              let st := { st with count := st.count + 1 }
              if ¬ ValidFrame destination then do
                release destination
                pure (.error .invalidFrame, st)
              else do
                Prog.forEach (fun index => write destination index 0) tableIndices
                let (result, st) ←
                  cloneEntries level (cloneTable limit below) source destination tableIndices st
                match result with
                | .ok _ => pure (.ok destination, st)
                | .error e => do
                    releaseTree level destination
                    pure (.error e, st)

def cloneRoot (limit : Nat) (source : UInt64) : TableProg (Except CloneError OwnedRoot) := do
  let (result, st) ← cloneTable limit 4 source ⟨Vector.replicate 4 0, 0⟩
  match result with
  | .error e => pure (.error e)
  | .ok physical => pure (.ok ⟨physical, st.count⟩)

end GenericKernel.Paging
