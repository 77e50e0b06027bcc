import GenericKernel.Lib.Bytes
import GenericKernel.Lib.Ring
import GenericKernel.Lib.Transition
import GenericKernel.Paging.UserAccess

/-!
# Keyboard and mouse input (`kernel/src/arch/{keyboard,mouse,input,user}.rs`)

Interrupts fill two rings: raw scancodes, decoded only when they are polled, and
mouse events, assembled from packets as their bytes arrive. `SYS_INPUT_POLL` takes
the next event, the keyboard before the mouse, and copies its packet to user
memory. System calls run with interrupts masked, so a call is one step.
-/

namespace GenericKernel.Input

open GenericKernel.Lib GenericKernel.Paging
open GenericKernel.Mm (UserSpace copyToUser)

/-! ## Keyboard -/

inductive Key
  | char (byte : UInt8)
  | tab
  | enter
  | backspace
  | escape
  | f12
  | arrowUp
  | arrowDown
  | arrowLeft
  | arrowRight
  deriving DecidableEq, Repr

structure Keyboard where
  shift : Bool
  capsLock : Bool
  extended : Bool
  deriving DecidableEq, Repr

/-- The byte of an ASCII character. -/
def ascii (c : Char) : UInt8 := UInt8.ofNat c.toNat

/-- `to_ascii_uppercase` -/
def toAsciiUppercase (byte : UInt8) : UInt8 :=
  if ascii 'a' ≤ byte ∧ byte ≤ ascii 'z' then byte - 32 else byte

namespace Keyboard

def new : Keyboard := ⟨false, false, false⟩

/-- The letter of a scancode. -/
def letter : UInt8 → Option UInt8
  | 0x10 => some (ascii 'q')
  | 0x11 => some (ascii 'w')
  | 0x12 => some (ascii 'e')
  | 0x13 => some (ascii 'r')
  | 0x14 => some (ascii 't')
  | 0x15 => some (ascii 'y')
  | 0x16 => some (ascii 'u')
  | 0x17 => some (ascii 'i')
  | 0x18 => some (ascii 'o')
  | 0x19 => some (ascii 'p')
  | 0x1e => some (ascii 'a')
  | 0x1f => some (ascii 's')
  | 0x20 => some (ascii 'd')
  | 0x21 => some (ascii 'f')
  | 0x22 => some (ascii 'g')
  | 0x23 => some (ascii 'h')
  | 0x24 => some (ascii 'j')
  | 0x25 => some (ascii 'k')
  | 0x26 => some (ascii 'l')
  | 0x2c => some (ascii 'z')
  | 0x2d => some (ascii 'x')
  | 0x2e => some (ascii 'c')
  | 0x2f => some (ascii 'v')
  | 0x30 => some (ascii 'b')
  | 0x31 => some (ascii 'n')
  | 0x32 => some (ascii 'm')
  | _ => none

/-- The plain and the shifted symbol of a scancode. -/
def pair : UInt8 → Option (UInt8 × UInt8)
  | 0x02 => some (ascii '1', ascii '!')
  | 0x03 => some (ascii '2', ascii '@')
  | 0x04 => some (ascii '3', 0x23)
  | 0x05 => some (ascii '4', ascii '$')
  | 0x06 => some (ascii '5', ascii '%')
  | 0x07 => some (ascii '6', ascii '^')
  | 0x08 => some (ascii '7', ascii '&')
  | 0x09 => some (ascii '8', ascii '*')
  | 0x0a => some (ascii '9', 0x28)
  | 0x0b => some (ascii '0', 0x29)
  | 0x0c => some (ascii '-', ascii '_')
  | 0x0d => some (ascii '=', ascii '+')
  | 0x1a => some (0x5b, 0x7b)
  | 0x1b => some (0x5d, 0x7d)
  | 0x27 => some (ascii ';', ascii ':')
  | 0x28 => some (0x27, 0x22)
  | 0x29 => some (0x60, ascii '~')
  | 0x2b => some (0x5c, ascii '|')
  | 0x33 => some (ascii ',', ascii '<')
  | 0x34 => some (ascii '.', ascii '>')
  | 0x35 => some (ascii '/', ascii '?')
  | 0x39 => some (ascii ' ', ascii ' ')
  | _ => none

def scancodeToAscii (self : Keyboard) (code : UInt8) : Option UInt8 :=
  match letter code with
  | some byte => some (if self.shift ^^ self.capsLock then toAsciiUppercase byte else byte)
  | none => (pair code).map fun (plain, shifted) => if self.shift then shifted else plain

/-- The key that a code completes, if any, and the state behind it. -/
def decodeScancode (self : Keyboard) (code : UInt8) : Option Key × Keyboard :=
  if code = 0xe0 then (none, { self with extended := true })
  else if self.extended then
    let self := { self with extended := false }
    if code &&& 0x80 ≠ 0 then (none, self)
    else
      match code with
      | 0x48 => (some .arrowUp, self)
      | 0x50 => (some .arrowDown, self)
      | 0x4b => (some .arrowLeft, self)
      | 0x4d => (some .arrowRight, self)
      | _ => (none, self)
  else
    match code with
    | 0x2a | 0x36 => (none, { self with shift := true })
    | 0xaa | 0xb6 => (none, { self with shift := false })
    | 0x3a => (none, { self with capsLock := !self.capsLock })
    | 0x01 => (some .escape, self)
    | 0x0f => (some .tab, self)
    | 0x1c => (some .enter, self)
    | 0x0e => (some .backspace, self)
    | 0x58 => (some .f12, self)
    | code =>
        if code &&& 0x80 ≠ 0 then (none, self)
        else ((self.scancodeToAscii code).map .char, self)

/-- Pop codes until one completes a key. -/
def pollKey (self : Keyboard) (scancodes : Ring UInt8 256) :
    Option Key × Keyboard × Ring UInt8 256 :=
  match _h : scancodes.pop with
  | (none, scancodes) => (none, self, scancodes)
  | (some code, scancodes) =>
      match self.decodeScancode code with
      | (some key, self) => (some key, self, scancodes)
      | (none, self) => self.pollKey scancodes
termination_by scancodes.len
decreasing_by exact Ring.len_pop_lt _ _h

end Keyboard

/-! ## Mouse -/

/-- Movements are small signed numbers: every `i16`, `i8` and `i32` of the source
holds them. -/
structure MouseEvent where
  dx : Int
  dy : Int
  wheel : Int
  buttons : UInt8
  deriving DecidableEq, Repr

/-- The packet being assembled; its index stays inside the packet. -/
structure Assembly where
  packet : Vector UInt8 4
  packetIndex : Nat
  packetLen : Nat
  index_lt : packetIndex < packetLen
  len_le : packetLen ≤ 4

structure MouseState where
  assembly : Assembly
  queue : Ring MouseEvent 128

namespace MouseState

/-- Three bytes to a packet, or four with `set_wheel_mode(true)`. -/
def new (wheel : Bool) : MouseState where
  assembly := {
    packet := Vector.replicate 4 0
    packetIndex := 0
    packetLen := if wheel then 4 else 3
    index_lt := by cases wheel <;> decide
    len_le := by cases wheel <;> decide }
  queue := Ring.empty (Vector.replicate 128 ⟨0, 0, 0, 0⟩) (by decide)

/-- `byte as i8` -/
def signed (byte : UInt8) : Int := byte.toInt8.toInt

/-- The event of a complete packet. -/
def event (packet : Vector UInt8 4) (packetLen : Nat) : MouseEvent where
  dx := signed packet[1]
  dy := -signed packet[2]
  wheel :=
    if packetLen = 4 then
      let nibble := packet[3] &&& 0x0f
      if nibble &&& 0x08 ≠ 0 then signed (nibble ||| 0xf0) else signed nibble
    else 0
  buttons := packet[0] &&& 0x07

/-- The part of `push_byte` before the queue: one more byte of the packet. -/
def assemble (self : Assembly) (byte : UInt8) : Option MouseEvent × Assembly :=
  have hindex : self.packetIndex < 4 := Nat.lt_of_lt_of_le self.index_lt self.len_le
  if self.packetIndex = 0 ∧ byte &&& 0x08 = 0 then (none, self)
  else
    let packet := self.packet.set self.packetIndex byte
    if h : self.packetIndex + 1 < self.packetLen then
      (none, { self with packet := packet, packetIndex := self.packetIndex + 1, index_lt := h })
    else
      let self : Assembly := { self with
        packet := packet
        packetIndex := 0
        index_lt := Nat.lt_of_le_of_lt (Nat.zero_le _) self.index_lt }
      if packet[0] &&& 0xc0 ≠ 0 then (none, self)
      else (some (event packet self.packetLen), self)

def pushByte (self : MouseState) (byte : UInt8) : MouseState :=
  match assemble self.assembly byte with
  | (none, assembly) => { self with assembly := assembly }
  | (some event, assembly) => { assembly := assembly, queue := self.queue.push event }

end MouseState

/-! ## Polling -/

def PACKET_BYTES : Nat := 24

def INPUT_KEY : Nat := 1

def INPUT_MOUSE : Nat := 2

structure InputPacket where
  kind : Nat
  code : Nat
  x : Int
  y : Int
  z : Int
  flags : Nat
  deriving DecidableEq, Repr

/-- Six little-endian words; `i32 as u32` is the remainder modulo 2^32. -/
def InputPacket.encode (self : InputPacket) : List UInt8 :=
  leBytes 4 self.kind ++ leBytes 4 self.code ++ leBytes 4 (self.x % 2 ^ 32).toNat ++
    leBytes 4 (self.y % 2 ^ 32).toNat ++ leBytes 4 (self.z % 2 ^ 32).toNat ++ leBytes 4 self.flags

def keyCode : Key → Nat
  | .char byte => byte.toNat
  | .tab => 0x100
  | .enter => 0x101
  | .escape => 0x102
  | .backspace => 0x103
  | .f12 => 0x104
  | .arrowUp => 0x110
  | .arrowDown => 0x111
  | .arrowLeft => 0x112
  | .arrowRight => 0x113

def keyPacket (key : Key) : InputPacket := ⟨INPUT_KEY, keyCode key, 0, 0, 0, 1⟩

def mousePacket (event : MouseEvent) : InputPacket :=
  ⟨INPUT_MOUSE, 0, event.dx, event.dy, event.wheel, event.buttons.toNat⟩

/-- The two devices, and what has been copied to user memory: the address and the
bytes of each copy. -/
structure Devices where
  keyboard : Keyboard
  scancodes : Ring UInt8 256
  mouse : MouseState
  copied : List (Nat × List UInt8)

/-- The devices after initialisation. -/
def Devices.new (wheel : Bool) : Devices where
  keyboard := Keyboard.new
  scancodes := Ring.empty (Vector.replicate 256 0) (by decide)
  mouse := MouseState.new wheel
  copied := []

/-- `input::poll` -/
def Devices.poll (self : Devices) : Option InputPacket × Devices :=
  match self.keyboard.pollKey self.scancodes with
  | (some key, keyboard, scancodes) =>
      (some (keyPacket key), { self with keyboard := keyboard, scancodes := scancodes })
  | (none, keyboard, scancodes) =>
      let self := { self with keyboard := keyboard, scancodes := scancodes }
      match self.mouse.queue.pop with
      | (none, queue) => (none, { self with mouse := { self.mouse with queue := queue } })
      | (some event, queue) =>
          (some (mousePacket event), { self with mouse := { self.mouse with queue := queue } })

/-! ## The system call -/

def EFAULT : Nat := 2 ^ 64 - 1 - 3

def EINVAL : Nat := 2 ^ 64 - 1 - 5

/-- `SYS_INPUT_POLL` -/
def sysInputPoll (space : UserSpace) (arg0 arg1 : Nat) : Routine Devices String Nat where
  run self :=
    if wordSize ≤ arg1 then (.ok EINVAL, self)
    else if arg1 < PACKET_BYTES then (.ok EINVAL, self)
    else
      match self.poll with
      | (none, self) => (.ok 0, self)
      | (some packet, self) =>
          match copyToUser space arg0 packet.encode PACKET_BYTES with
          | .error _ => (.ok EFAULT, self)
          | .panic => (.panic, self)
          | .ok () => (.ok 1, { self with copied := self.copied ++ [(arg0, packet.encode)] })

/-- What happens to the devices: a byte from a port, or a call. -/
inductive Action
  | scancode (code : UInt8)
  | mouseByte (byte : UInt8)
  | poll (space : UserSpace) (arg0 arg1 : Nat)

/-- One action; none after a panic. -/
def step (self : Devices) : Action → Option Devices
  | .scancode code => some { self with scancodes := self.scancodes.push code }
  | .mouseByte byte => some { self with mouse := self.mouse.pushByte byte }
  | .poll space arg0 arg1 =>
      match (sysInputPoll space arg0 arg1).run self with
      | (.panic, _) => none
      | (_, self) => some self

end GenericKernel.Input
