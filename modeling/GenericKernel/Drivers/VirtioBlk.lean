import GenericKernel.Fs.Block
import GenericKernel.Lib.Transition

/-!
# The virtio-blk driver and its device (`kernel/src/arch/virtio_blk.rs`)

Driver and device share DMA memory: the virtqueue (descriptors, available ring,
the two indices) and one request page (header, data, status byte). `World` holds
both sides. An `Action` is one of

* `call` — a caller enters `read_sector` or `write_sector` (the mutex admits one
  at a time);
* `driver` — the driver executes its next access to shared memory;
* `fetch`, `transfer`, `fail`, `answer`, `complete` — the device takes the next
  published chain, moves the data or gives up, writes the status byte, and
  advances the used index.

The device takes each published chain once and in order, at any later moment;
it reads the header when it fetches and the data when it transfers. The used
ring's entries, the notify port and the ISR port carry nothing the driver
reads, and are left out.
-/

namespace GenericKernel.VirtioBlk

def DESC_NEXT : UInt16 := 1
def DESC_WRITE : UInt16 := 2
def REQ_READ : UInt32 := 0
def REQ_WRITE : UInt32 := 1
def REQUEST_DATA_OFFSET : Nat := 16
def REQUEST_STATUS_OFFSET : Nat := REQUEST_DATA_OFFSET + SECTOR_SIZE

/-- Polls of the used index before a request is given up. -/
def POLL_BUDGET : Nat := 20000000

structure Desc where
  address : Nat
  len : Nat
  flags : UInt16
  next : Nat
  deriving DecidableEq, Repr

/-- The DMA memory. -/
structure Memory where
  desc : Nat → Desc
  availRing : UInt16 → Nat
  availIdx : UInt16
  usedIdx : UInt16
  requestType : UInt32
  reserved : UInt32
  sector : UInt64
  data : Sector
  status : UInt8

/-- `State`: what the driver itself remembers. -/
structure State where
  queueSize : UInt16
  requestPhys : Nat
  availIdx : UInt16
  lastUsed : UInt16

inductive Call
  | read (sector : UInt64)
  | write (sector : UInt64) (buffer : Sector)

namespace Call

def sector : Call → UInt64
  | .read s => s
  | .write s _ => s

def requestType : Call → UInt32
  | .read _ => REQ_READ
  | .write _ _ => REQ_WRITE

/-- `data_flags`: the device writes into the buffer of a read. -/
def dataFlags : Call → UInt16
  | .read _ => DESC_NEXT ||| DESC_WRITE
  | .write _ _ => DESC_NEXT ||| 0

end Call

/-- What a caller gets back. -/
inductive Return
  | read (sector : UInt64) (result : Except BlockError Sector)
  | write (sector : UInt64) (buffer : Sector) (result : Except BlockError Unit)

/-- A call that ends with an error. -/
def Call.failed : Call → BlockError → Return
  | .read s, e => .read s (.error e)
  | .write s b, e => .write s b (.error e)

/-- What the driver does next. -/
inductive Phase
  | returned (last : Option Return)
  | copyIn (sector : UInt64) (buffer : Sector)
  | header (c : Call)
  | status (c : Call)
  | descriptor (c : Call) (index : Nat)
  | ringSlot (c : Call)
  | publish (c : Call)
  | poll (c : Call) (left : Nat)
  | check (c : Call)
  | copyOut (sector : UInt64)

/-- What the device keeps of a chain it has fetched. -/
structure Fetched where
  requestType : UInt32
  sector : UInt64
  dataFlags : UInt16

inductive DevicePhase
  | idle
  | fetched (request : Fetched)
  | transferred (status : UInt8)
  | answered

structure World where
  capacity : UInt64
  state : State
  mem : Memory
  phase : Phase
  disk : UInt64 → Sector
  seen : UInt16
  device : DevicePhase

inductive Action
  | call (c : Call)
  | driver
  | fetch
  | transfer
  | fail (status : UInt8) (junk : Sector)
  | answer
  | complete

namespace World

/-! ## The driver -/

/-- `read_sector` and `write_sector` up to the first access. -/
def enter (w : World) (c : Call) : World :=
  if w.capacity ≤ c.sector then
    { w with phase := .returned (some (c.failed .outOfRange)) }
  else
    match c with
    | .read s => { w with phase := .header (.read s) }
    | .write s b => { w with phase := .copyIn s b }

/-- The descriptor `index` of a request. -/
def requestDesc (requestPhys : Nat) (c : Call) (index : Nat) : Desc :=
  if index = 0 then ⟨requestPhys, 16, DESC_NEXT, 1⟩
  else if index = 1 then
    ⟨requestPhys + REQUEST_DATA_OFFSET, SECTOR_SIZE, c.dataFlags, 2⟩
  else ⟨requestPhys + REQUEST_STATUS_OFFSET, 1, DESC_WRITE, 0⟩

def writeDesc (m : Memory) (index : Nat) (d : Desc) : Memory :=
  { m with desc := fun i => if i = index then d else m.desc i }

/-- The next access of the driver. -/
def driverStep (w : World) : Option World :=
  match w.phase with
  | .returned _ => none
  | .copyIn s b => some { w with mem.data := b, phase := .header (.write s b) }
  | .header c => some { w with
      mem.requestType := c.requestType
      mem.reserved := 0
      mem.sector := c.sector
      phase := .status c }
  | .status c => some { w with mem.status := 0xff, phase := .descriptor c 0 }
  | .descriptor c index => some { w with
      mem := writeDesc w.mem index (requestDesc w.state.requestPhys c index)
      phase := if index = 2 then .ringSlot c else .descriptor c (index + 1) }
  | .ringSlot c => some { w with
      mem.availRing := fun i =>
        if i = w.state.availIdx % w.state.queueSize then 0 else w.mem.availRing i
      phase := .publish c }
  | .publish c => some { w with
      state.availIdx := w.state.availIdx + 1
      mem.availIdx := w.state.availIdx + 1
      phase := .poll c POLL_BUDGET }
  | .poll c 0 => some { w with phase := .returned (some (c.failed .io)) }
  | .poll c (left + 1) =>
      if w.mem.usedIdx ≠ w.state.lastUsed then
        some { w with state.lastUsed := w.mem.usedIdx, phase := .check c }
      else some { w with phase := .poll c left }
  | .check c =>
      if w.mem.status = 0 then
        match c with
        | .read s => some { w with phase := .copyOut s }
        | .write s b => some { w with phase := .returned (some (.write s b (.ok ()))) }
      else some { w with phase := .returned (some (c.failed .io)) }
  | .copyOut s => some { w with phase := .returned (some (.read s (.ok w.mem.data))) }

/-! ## The device -/

/-- The chain that starts at a descriptor, as the driver lays it out: header,
data, status byte. -/
def chain (w : World) (first : Nat) : Option Fetched :=
  let d₀ := w.mem.desc first
  let d₁ := w.mem.desc d₀.next
  let d₂ := w.mem.desc d₁.next
  if d₀.address = w.state.requestPhys ∧ d₀.len = 16 ∧
      d₁.address = w.state.requestPhys + REQUEST_DATA_OFFSET ∧ d₁.len = SECTOR_SIZE ∧
      d₂.address = w.state.requestPhys + REQUEST_STATUS_OFFSET ∧ d₂.len = 1 then
    some ⟨w.mem.requestType, w.mem.sector, d₁.flags⟩
  else none

/-- Take the next published chain. -/
def fetch (w : World) : Option World :=
  match w.device with
  | .idle =>
      if w.seen = w.mem.availIdx then none
      else
        (w.chain (w.mem.availRing (w.seen % w.state.queueSize))).map fun r =>
          { w with device := .fetched r }
  | _ => none

/-- Move the data of a request that succeeds. -/
def transfer (w : World) : Option World :=
  match w.device with
  | .fetched r =>
      if w.capacity ≤ r.sector then none
      else if r.requestType = REQ_READ ∧ r.dataFlags &&& DESC_WRITE ≠ 0 then
        some { w with mem.data := w.disk r.sector, device := .transferred 0 }
      else if r.requestType = REQ_WRITE ∧ r.dataFlags &&& DESC_WRITE = 0 then
        some { w with
          disk := fun s => if s = r.sector then w.mem.data else w.disk s
          device := .transferred 0 }
      else none
  | _ => none

/-- Give a request up, leaving anything where its data should go. -/
def fail (w : World) (status : UInt8) (junk : Sector) : Option World :=
  match w.device with
  | .fetched r =>
      if status = 0 then none
      else if r.dataFlags &&& DESC_WRITE ≠ 0 then
        some { w with mem.data := junk, device := .transferred status }
      else if r.requestType = REQ_WRITE then
        some { w with
          disk := fun s => if s = r.sector then junk else w.disk s
          device := .transferred status }
      else some { w with device := .transferred status }
  | _ => none

def answer (w : World) : Option World :=
  match w.device with
  | .transferred status => some { w with mem.status := status, device := .answered }
  | _ => none

def complete (w : World) : Option World :=
  match w.device with
  | .answered => some { w with
      mem.usedIdx := w.mem.usedIdx + 1
      seen := w.seen + 1
      device := .idle }
  | _ => none

/-- One action. A caller waits for the mutex until the last call returned. -/
def step (w : World) : Action → Option World
  | .call c =>
      match w.phase with
      | .returned _ => some (w.enter c)
      | _ => none
  | .driver => w.driverStep
  | .fetch => w.fetch
  | .transfer => w.transfer
  | .fail status junk => w.fail status junk
  | .answer => w.answer
  | .complete => w.complete

end World

/-! ## Bringing the device up -/

/-- What the ports and the DMA allocator answer to `probe`. -/
structure Config where
  queueSize : UInt16
  queuePfn : UInt32
  queueDma : Option Nat
  requestDma : Option Nat
  capacity : UInt64
  disk : UInt64 → Sector

/-- Zeroed DMA memory. -/
def Memory.zero : Memory where
  desc _ := ⟨0, 0, 0, 0⟩
  availRing _ := 0
  availIdx := 0
  usedIdx := 0
  requestType := 0
  reserved := 0
  sector := 0
  data := Vector.replicate SECTOR_SIZE 0
  status := 0

/-- `VirtioBlock::probe`, for a device that was found. -/
def probe (c : Config) : Except String World :=
  if c.queueSize < 3 ∨ 1024 < c.queueSize then
    .error "virtio-blk reported invalid queue size"
  else if c.queuePfn ≠ 0 then .error "virtio-blk queue already active"
  else
    match c.queueDma, c.requestDma with
    | none, _ => .error "no DMA memory for virtqueue"
    | some _, none => .error "no DMA memory for virtio request"
    | some queue, some request =>
        if 2 ^ 32 ≤ queue / 2 ^ 12 then .error "virtqueue above legacy PFN range"
        else if c.capacity = 0 then .error "virtio-blk has zero capacity"
        else .ok {
          capacity := c.capacity
          state := ⟨c.queueSize, request, 0, 0⟩
          mem := .zero
          phase := .returned none
          disk := c.disk
          seen := 0
          device := .idle }

end GenericKernel.VirtioBlk
