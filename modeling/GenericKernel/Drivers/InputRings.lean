import GenericKernel.Drivers.Input

/-!
# The rings of the input drivers (`kernel/src/arch/{keyboard,mouse}.rs`)

`ScancodeQueue` and `MouseState` keep their items in an array with two indices and
a counter, all of them plain numbers. Here every sum, difference and array access is
the checked one: an index outside the array would be a panic.

* **model** — `RawQueue` has the statements both files share, `ScancodeQueue` and
  `RawMouseState` their own methods;
* **refinement** — on the fields of a `Ring`, whose type carries the invariant of the
  indices, every statement returns and does what the ring does (`RawQueue.push_of`,
  `RawQueue.pop_of`, `RawMouseState.step_of`);
* **result** — `input_rings_fifo`: any sequence of operations is answered as by a list.
-/

namespace GenericKernel.Input

open GenericKernel.Lib

/-! ## The queue of either file -/

/-- The array, the two indices and the counter. -/
structure RawQueue (α : Type) (capacity : Nat) where
  slots : Vector α capacity
  read : Nat
  write : Nat
  len : Nat

/-- `array[index]` -/
def load {α : Type} {n : Nat} (array : Vector α n) (index : Nat) : Fallible Empty α :=
  if h : index < n then .ok array[index] else .panic

/-- `array[index] = value` -/
def store {α : Type} {n : Nat} (array : Vector α n) (index : Nat) (value : α) :
    Fallible Empty (Vector α n) :=
  if h : index < n then .ok (array.set index value) else .panic

namespace RawQueue

variable {α : Type} {capacity : Nat}

/-- `(index + 1) % QUEUE_CAPACITY` -/
def next (capacity index : Nat) : Fallible Empty Nat := do
  let sum ← .add index 1
  return sum % capacity

/-- The two statements that take the oldest item out. -/
def discard (self : RawQueue α capacity) : Fallible Empty (RawQueue α capacity) := do
  let read ← next capacity self.read
  let len ← .sub self.len 1
  return { self with read, len }

/-- The statements of a push behind the test for a full queue. -/
def append (self : RawQueue α capacity) (item : α) : Fallible Empty (RawQueue α capacity) := do
  let slots ← store self.slots self.write item
  let write ← next capacity self.write
  let len ← .add self.len 1
  return { self with slots, write, len }

def push (self : RawQueue α capacity) (item : α) : Fallible Empty (RawQueue α capacity) :=
  if self.len = capacity then do
    let self ← self.discard
    self.append item
  else self.append item

def pop (self : RawQueue α capacity) : Fallible Empty (Option α × RawQueue α capacity) :=
  if self.len = 0 then .ok (none, self)
  else do
    let item ← load self.slots self.read
    let self ← self.discard
    return (some item, self)

def clear (self : RawQueue α capacity) : RawQueue α capacity :=
  { self with read := 0, write := 0, len := 0 }

end RawQueue

/-! ## The two drivers -/

abbrev ScancodeQueue := RawQueue UInt8 256

namespace ScancodeQueue

def new : ScancodeQueue := ⟨Vector.replicate 256 0, 0, 0, 0⟩

def push (self : ScancodeQueue) (byte : UInt8) : Fallible Empty ScancodeQueue :=
  RawQueue.push self byte

def pop (self : ScancodeQueue) : Fallible Empty (Option UInt8 × ScancodeQueue) :=
  RawQueue.pop self

def clear (self : ScancodeQueue) : ScancodeQueue := RawQueue.clear self

/-- One operation, and what a `pop` returns. -/
def step (self : ScancodeQueue) : QueueOp UInt8 → Fallible Empty (Option UInt8 × ScancodeQueue)
  | .push byte => do return (none, ← self.push byte)
  | .pop => self.pop
  | .clear => .ok (none, self.clear)

end ScancodeQueue

/-- The fields of the source's `MouseState`. -/
structure RawMouseState where
  packet : Vector UInt8 4
  packetIndex : Nat
  packetLen : Nat
  queue : RawQueue MouseEvent 128

/-- What is done to the mouse: a byte from the port, an event put into the queue as the end of
`push_byte` does, or a call. -/
inductive MouseOp
  | byte (byte : UInt8)
  | enqueue (event : MouseEvent)
  | pop
  | drain
  | setWheelMode (enabled : Bool)

namespace RawMouseState

def new : RawMouseState where
  packet := Vector.replicate 4 0
  packetIndex := 0
  packetLen := 3
  queue := ⟨Vector.replicate 128 ⟨0, 0, 0, 0⟩, 0, 0, 0⟩

/-- The end of `push_byte`. -/
def enqueue (self : RawMouseState) (event : MouseEvent) : Fallible Empty RawMouseState := do
  return { self with queue := ← self.queue.push event }

theorem first_lt : 0 < 4 := by decide

def pushByte (self : RawMouseState) (byte : UInt8) : Fallible Empty RawMouseState :=
  if self.packetIndex = 0 ∧ byte &&& 0x08 = 0 then .ok self
  else do
    let packet ← store self.packet self.packetIndex byte
    let packetIndex ← .add self.packetIndex 1
    if packetIndex < self.packetLen then .ok { self with packet, packetIndex }
    else
      let self := { self with packet, packetIndex := 0 }
      if getElem packet 0 first_lt &&& 0xc0 ≠ 0 then .ok self
      else self.enqueue (MouseState.event packet self.packetLen)

def pop (self : RawMouseState) : Fallible Empty (Option MouseEvent × RawMouseState) := do
  let (event, queue) ← self.queue.pop
  return (event, { self with queue })

def drain (self : RawMouseState) : RawMouseState :=
  { self with queue := self.queue.clear, packetIndex := 0 }

def setWheelMode (self : RawMouseState) (enabled : Bool) : RawMouseState :=
  { self with packetLen := if enabled then 4 else 3, packetIndex := 0 }

/-- One operation, and what a `pop` returns. -/
def step (self : RawMouseState) : MouseOp → Fallible Empty (Option MouseEvent × RawMouseState)
  | .byte byte => do return (none, ← self.pushByte byte)
  | .enqueue event => do return (none, ← self.enqueue event)
  | .pop => self.pop
  | .drain => .ok (none, self.drain)
  | .setWheelMode enabled => .ok (none, self.setWheelMode enabled)

end RawMouseState

/-! ## The fields of a ring -/

namespace RawQueue

variable {α : Type} {capacity : Nat}

/-- The fields of a ring, without what is known of them. -/
def of (ring : Ring α capacity) : RawQueue α capacity :=
  ⟨ring.slots, ring.read, ring.write, ring.len⟩

theorem next_eq {index : Nat} (h : index < capacity) (hcapacity : capacity < wordSize) :
    next capacity index = .ok ((index + 1) % capacity) := by
  rw [next, Fallible.add_of_lt (by omega)]
  rfl

theorem discard_of (ring : Ring α capacity) (hcapacity : capacity < wordSize) (h : 0 < ring.len) :
    (of ring).discard = .ok (of (ring.advance h)) := by
  rw [discard, show (of ring).read = ring.read from rfl, next_eq ring.read_lt hcapacity,
    Fallible.ok_bind, show (of ring).len = ring.len from rfl, Fallible.sub_of_le h]
  rfl

theorem append_of (ring : Ring α capacity) (hcapacity : capacity < wordSize) (item : α)
    (h : ring.len < capacity) : (of ring).append item = .ok (of (ring.append item h)) := by
  have hstore : store (of ring).slots (of ring).write item
      = .ok (ring.slots.set ring.write item ring.write_lt) := dif_pos ring.write_lt
  have hnext : next capacity (of ring).write = .ok ((ring.write + 1) % capacity) :=
    next_eq ring.write_lt hcapacity
  have hadd : Fallible.add (of ring).len 1 = (.ok (ring.len + 1) : Fallible Empty Nat) := by
    apply Fallible.add_of_lt
    show ring.len + 1 < wordSize
    omega
  rw [append, hstore, Fallible.ok_bind, hnext, Fallible.ok_bind, hadd]
  rfl

theorem push_of (ring : Ring α capacity) (hcapacity : capacity < wordSize) (item : α) :
    (of ring).push item = .ok (of (ring.push item)) := by
  unfold push Ring.push
  by_cases hfull : ring.len = capacity
  · have hpos : 0 < ring.len := by
      rw [hfull]
      exact ring.read_lt.pos
    have hfull' : (of ring).len = capacity := hfull
    rw [if_pos hfull', dif_pos hfull, discard_of ring hcapacity hpos, Fallible.ok_bind]
    exact append_of _ hcapacity item _
  · have hfull' : ¬ (of ring).len = capacity := hfull
    rw [if_neg hfull', dif_neg hfull]
    exact append_of _ hcapacity item _

theorem pop_of (ring : Ring α capacity) (hcapacity : capacity < wordSize) :
    (of ring).pop = .ok (ring.pop.1, of ring.pop.2) := by
  unfold pop Ring.pop
  by_cases hpos : 0 < ring.len
  · have hsome : ¬ (of ring).len = 0 := Nat.ne_of_gt hpos
    have hload : load (of ring).slots (of ring).read
        = .ok (ring.slots.get ⟨ring.read, ring.read_lt⟩) := dif_pos ring.read_lt
    rw [if_neg hsome, dif_pos hpos, hload, Fallible.ok_bind, discard_of ring hcapacity hpos]
    rfl
  · have hnone : (of ring).len = 0 := Nat.eq_zero_of_not_pos hpos
    rw [if_pos hnone, dif_neg hpos]

end RawQueue

theorem ScancodeQueue.step_of (ring : Ring UInt8 256) (op : QueueOp UInt8) :
    ScancodeQueue.step (RawQueue.of ring) op
      = .ok ((ring.step op).1, RawQueue.of (ring.step op).2) := by
  have hcapacity : 256 < wordSize := lt_wordSize (by decide)
  cases op with
  | push byte =>
      have hpush : ScancodeQueue.push (RawQueue.of ring) byte = .ok (RawQueue.of (ring.push byte)) :=
        RawQueue.push_of ring hcapacity byte
      rw [step, hpush]
      rfl
  | pop => exact RawQueue.pop_of ring hcapacity
  | clear => rfl

/-! ## The mouse with a ring -/

theorem Assembly.len_pos (self : Assembly) : 0 < self.packetLen :=
  Nat.lt_of_le_of_lt (Nat.zero_le _) self.index_lt

theorem wheelLen_pos (enabled : Bool) : 0 < if enabled then 4 else 3 := by
  cases enabled <;> decide

theorem wheelLen_le (enabled : Bool) : (if enabled then 4 else 3) ≤ 4 := by
  cases enabled <;> decide

namespace MouseState

def enqueue (self : MouseState) (event : MouseEvent) : MouseState :=
  { self with queue := self.queue.push event }

/-- The assembly at the start of a packet. -/
def restart (self : Assembly) : Assembly :=
  { self with packetIndex := 0, index_lt := self.len_pos }

/-- The assembly at the start of a packet of three or four bytes. -/
def wheelMode (self : Assembly) (enabled : Bool) : Assembly where
  packet := self.packet
  packetIndex := 0
  packetLen := if enabled then 4 else 3
  index_lt := wheelLen_pos enabled
  len_le := wheelLen_le enabled

/-- One operation, and what a `pop` returns. -/
def perform (self : MouseState) : MouseOp → Option MouseEvent × MouseState
  | .byte byte => (none, self.pushByte byte)
  | .enqueue event => (none, self.enqueue event)
  | .pop => (self.queue.pop.1, { self with queue := self.queue.pop.2 })
  | .drain => (none, ⟨restart self.assembly, self.queue.clear⟩)
  | .setWheelMode enabled => (none, { self with assembly := wheelMode self.assembly enabled })

end MouseState

namespace RawMouseState

def of (mouse : MouseState) : RawMouseState where
  packet := mouse.assembly.packet
  packetIndex := mouse.assembly.packetIndex
  packetLen := mouse.assembly.packetLen
  queue := RawQueue.of mouse.queue

theorem capacity_lt : 128 < wordSize := lt_wordSize (by decide)

theorem enqueue_of (mouse : MouseState) (event : MouseEvent) :
    (of mouse).enqueue event = .ok (of (mouse.enqueue event)) := by
  have hpush : (of mouse).queue.push event = .ok (RawQueue.of (mouse.queue.push event)) :=
    RawQueue.push_of mouse.queue capacity_lt event
  rw [enqueue, hpush]
  rfl

theorem pushByte_of (mouse : MouseState) (byte : UInt8) :
    (of mouse).pushByte byte = .ok (of (mouse.pushByte byte)) := by
  obtain ⟨⟨packet, packetIndex, packetLen, index_lt, len_le⟩, queue⟩ := mouse
  have hindex : packetIndex < 4 := Nat.lt_of_lt_of_le index_lt len_le
  have hword := capacity_lt
  unfold pushByte MouseState.pushByte MouseState.assemble of
  dsimp only
  by_cases hskip : packetIndex = 0 ∧ byte &&& 0x08 = 0
  · rw [if_pos hskip, if_pos hskip]
  · have hstore : store packet packetIndex byte = .ok (packet.set packetIndex byte) := dif_pos hindex
    rw [if_neg hskip, if_neg hskip, hstore, Fallible.ok_bind, Fallible.add_of_lt (by omega),
      Fallible.ok_bind]
    by_cases hmore : packetIndex + 1 < packetLen
    · rw [if_pos hmore, dif_pos hmore]
    · rw [if_neg hmore, dif_neg hmore]
      by_cases hoverflow : (packet.set packetIndex byte)[0] &&& 0xc0 ≠ 0
      · rw [if_pos hoverflow, if_pos hoverflow]
      · rw [if_neg hoverflow, if_neg hoverflow]
        exact enqueue_of ⟨⟨packet.set packetIndex byte, 0, packetLen, _, len_le⟩, queue⟩ _

theorem step_of (mouse : MouseState) (op : MouseOp) :
    (of mouse).step op = .ok ((mouse.perform op).1, of (mouse.perform op).2) := by
  cases op with
  | byte byte =>
      rw [step, pushByte_of]
      rfl
  | enqueue event =>
      rw [step, enqueue_of]
      rfl
  | pop =>
      have hpop : (of mouse).queue.pop
          = .ok (mouse.queue.pop.1, RawQueue.of mouse.queue.pop.2) :=
        RawQueue.pop_of mouse.queue capacity_lt
      rw [step, pop, hpop]
      rfl
  | drain => rfl
  | setWheelMode enabled => rfl

end RawMouseState

/-! ## Lists -/

/-- What an operation does to the queue: a byte puts an event there when it completes a packet. -/
def MouseOp.queueOp (assembly : Assembly) : MouseOp → Option (QueueOp MouseEvent)
  | .byte value => (MouseState.assemble assembly value).1.map .push
  | .enqueue event => some (.push event)
  | .pop => some .pop
  | .drain => some .clear
  | .setWheelMode _ => none

/-- What it does to the packet. -/
def MouseOp.assembly (assembly : Assembly) : MouseOp → Assembly
  | .byte value => (MouseState.assemble assembly value).2
  | .drain => MouseState.restart assembly
  | .setWheelMode enabled => MouseState.wheelMode assembly enabled
  | .enqueue _ | .pop => assembly

/-- A mouse with a list for a queue. -/
def mouseFifo (s : Assembly × List MouseEvent) (op : MouseOp) :
    Option MouseEvent × Assembly × List MouseEvent :=
  match op.queueOp s.1 with
  | none => (none, op.assembly s.1, s.2)
  | some queueOp =>
      ((fifoStep 128 s.2 queueOp).1, op.assembly s.1, (fifoStep 128 s.2 queueOp).2)

/-- The list view of a mouse. -/
def MouseState.view (self : MouseState) : Assembly × List MouseEvent :=
  (self.assembly, self.queue.toList)

theorem MouseState.perform_view (self : MouseState) (op : MouseOp) :
    (self.perform op).1 = (mouseFifo self.view op).1 ∧
      (self.perform op).2.view = (mouseFifo self.view op).2 := by
  cases op with
  | byte byte =>
      unfold perform pushByte mouseFifo MouseOp.queueOp MouseOp.assembly view
      dsimp only
      rcases MouseState.assemble self.assembly byte with ⟨event, assembly⟩
      cases event with
      | none => exact ⟨rfl, rfl⟩
      | some event =>
          exact ⟨rfl, congrArg (Prod.mk assembly) (self.queue.step_toList (.push event)).2⟩
  | enqueue event =>
      exact ⟨rfl, congrArg (Prod.mk self.assembly) (self.queue.step_toList (.push event)).2⟩
  | pop =>
      obtain ⟨hreply, hitems⟩ := self.queue.step_toList .pop
      exact ⟨hreply, congrArg (Prod.mk self.assembly) hitems⟩
  | drain => exact ⟨rfl, rfl⟩
  | setWheelMode enabled => exact ⟨rfl, rfl⟩

/-- **The input rings are bounded queues.** Any sequence of operations on either ring returns, with
the answers of a list that holds 256 codes or 128 events; and the indices keep their invariant. -/
theorem input_rings_fifo :
    (∀ ops : List (QueueOp UInt8), ∃ q : ScancodeQueue,
      tryServe ScancodeQueue.step ScancodeQueue.new ops = .ok ((serve (fifoStep 256) [] ops).1, q) ∧
        q.write = (q.read + q.len) % 256 ∧ q.len ≤ 256) ∧
    ∀ ops : List MouseOp, ∃ m : RawMouseState,
      tryServe RawMouseState.step RawMouseState.new ops =
          .ok ((serve mouseFifo ((MouseState.new false).assembly, []) ops).1, m) ∧
        m.queue.write = (m.queue.read + m.queue.len) % 128 ∧ m.queue.len ≤ 128 := by
  constructor
  · intro ops
    let ring : Ring UInt8 256 := Ring.empty (Vector.replicate 256 0) (by decide)
    let final := (serve Ring.step ring ops).2
    obtain ⟨hreplies, -⟩ := serve_eq Ring.step_toList ops ring
    refine ⟨RawQueue.of final, ?_, final.write_eq, final.len_le⟩
    have hserve := tryServe_eq ScancodeQueue.step_of ops ring
    rw [hreplies] at hserve
    exact hserve
  · intro ops
    let final := (serve MouseState.perform (MouseState.new false) ops).2
    obtain ⟨hreplies, -⟩ := serve_eq MouseState.perform_view ops (MouseState.new false)
    refine ⟨RawMouseState.of final, ?_, final.queue.write_eq, final.queue.len_le⟩
    have hserve := tryServe_eq RawMouseState.step_of ops (MouseState.new false)
    rw [hreplies] at hserve
    exact hserve

end GenericKernel.Input
