import GenericKernel.Drivers.Input

/-!
# Mouse packets

A PS/2 packet gives each movement as nine bits: a byte, and a sign bit in the first
byte of the packet. `push_byte` reads the byte alone, as an `i8`.

* **queue** — what was popped and what is pending are the decoded events, however
  bytes and pops are interleaved (`popped_append_pending`);
* **framing** — from a packet boundary, every packet is decoded by itself
  (`outputs_packets`);
* **result** — the events are the movements of the packets exactly when every sign
  bit repeats the top bit of its byte (`packets_decoded_iff`).
-/

namespace GenericKernel.Input

open GenericKernel.Lib

/-! ## Bytes and pops -/

/-- A byte from the port, or a `pop`. -/
inductive MouseInput
  | byte (byte : UInt8)
  | pop

namespace MouseState

/-- One input, and the event that a pop returns. -/
def step (self : MouseState) : MouseInput → Option MouseEvent × MouseState
  | .byte byte => (none, self.pushByte byte)
  | .pop => (self.queue.pop.1, { self with queue := self.queue.pop.2 })

/-- No event is completed while 128 are pending. -/
def Room (self : MouseState) : MouseInput → Prop
  | .byte byte => (assemble self.assembly byte).1 ≠ none → self.queue.len < 128
  | .pop => True

def bytesOf (inputs : List MouseInput) : List UInt8 :=
  inputs.filterMap fun
    | .byte byte => some byte
    | .pop => none

theorem pushByte_pending (self : MouseState) (byte : UInt8) (hroom : self.Room (.byte byte)) :
    (self.pushByte byte).queue.toList =
        self.queue.toList ++ (assemble self.assembly byte).1.toList ∧
      (self.pushByte byte).assembly = (assemble self.assembly byte).2 := by
  have hroom : (assemble self.assembly byte).1 ≠ none → self.queue.len < 128 := hroom
  unfold pushByte
  rcases hstep : assemble self.assembly byte with ⟨event, assembly⟩
  cases event with
  | none => exact ⟨(List.append_nil _).symm, rfl⟩
  | some event =>
      rw [hstep] at hroom
      exact ⟨self.queue.toList_push_of_lt event (hroom (Option.some_ne_none event)), rfl⟩

theorem pop_pending (self : MouseState) :
    self.queue.pop.1.toList ++ self.queue.pop.2.toList = self.queue.toList := by
  cases hpending : self.queue.toList with
  | nil =>
      rw [self.queue.pop_of_nil hpending, hpending]
      rfl
  | cons event events =>
      obtain ⟨queue, hpop, hqueue⟩ := self.queue.pop_of_cons hpending
      rw [hpop, hqueue]
      rfl

/-- Nothing is lost or reordered between the decoder and the pops. -/
theorem popped_append_pending (inputs : List MouseInput) : ∀ self : MouseState,
    Each (fun s i => (step s i).2) Room self inputs →
      outputs step self inputs ++ (after step self inputs).queue.toList =
        self.queue.toList ++ outputs assemble self.assembly (bytesOf inputs) := by
  induction inputs with
  | nil => exact fun self _ => (List.append_nil _).symm
  | cons input inputs ih =>
      intro self hroom
      cases input with
      | byte byte =>
          obtain ⟨hpending, hassembly⟩ := self.pushByte_pending byte hroom.1
          have hrest := ih (self.pushByte byte) hroom.2
          rw [hpending, hassembly, List.append_assoc] at hrest
          exact hrest
      | pop =>
          have hrest := ih { self with queue := self.queue.pop.2 } hroom.2
          rw [outputs, List.append_assoc]
          refine (congrArg (self.queue.pop.1.toList ++ ·) hrest).trans ?_
          rw [← List.append_assoc, self.pop_pending]
          rfl

end MouseState

/-! ## Packets -/

/-- A packet as the mouse sends it; the fourth byte only in wheel mode. -/
structure Packet where
  first : UInt8
  second : UInt8
  third : UInt8
  fourth : UInt8

namespace Packet

def bytes (wheel : Bool) (p : Packet) : List UInt8 :=
  [p.first, p.second, p.third] ++ if wheel then [p.fourth] else []

/-- Bit 3 of the first byte is set. -/
def Framed (p : Packet) : Prop := p.first &&& 0x08 ≠ 0

/-- Neither movement has overflowed. -/
def inRange (p : Packet) : Bool := p.first &&& 0xc0 = 0

/-- The two's-complement number with this sign bit above a byte. -/
def nineBit (sign : Bool) (byte : UInt8) : Int := byte.toNat - if sign then 256 else 0

/-- The signed number in the low nibble. -/
def fourBit (byte : UInt8) : Int :=
  (byte &&& 0x0f).toNat - if byte &&& 0x08 ≠ 0 then 16 else 0

def negativeX (p : Packet) : Bool := p.first &&& 0x10 ≠ 0

def negativeY (p : Packet) : Bool := p.first &&& 0x20 ≠ 0

/-- What the packet says. -/
def motion (wheel : Bool) (p : Packet) : MouseEvent where
  dx := nineBit p.negativeX p.second
  dy := -nineBit p.negativeY p.third
  wheel := if wheel then fourBit p.fourth else 0
  buttons := p.first &&& 0x07

/-- What `push_byte` makes of it. -/
def decoded (wheel : Bool) (p : Packet) : MouseEvent where
  dx := MouseState.signed p.second
  dy := -MouseState.signed p.third
  wheel := if wheel then fourBit p.fourth else 0
  buttons := p.first &&& 0x07

/-- Each sign bit is the top bit of its byte: the movement fits in eight bits. -/
def Slow (p : Packet) : Prop :=
  (p.negativeX = true ↔ 0x80 ≤ p.second) ∧ (p.negativeY = true ↔ 0x80 ≤ p.third)

theorem signed_eq_nineBit_iff (sign : Bool) (byte : UInt8) :
    MouseState.signed byte = nineBit sign byte ↔ (sign = true ↔ 0x80 ≤ byte) := by
  revert byte
  cases sign with
  | false => exact forall_byte (by decide +kernel)
  | true => exact forall_byte (by decide +kernel)

theorem signed_nibble (byte : UInt8) :
    (let nibble := byte &&& 0x0f
     if nibble &&& 0x08 ≠ 0 then MouseState.signed (nibble ||| 0xf0)
     else MouseState.signed nibble) = fourBit byte := by
  revert byte
  exact forall_byte (by decide +kernel)

theorem decoded_eq_motion_iff (wheel : Bool) (p : Packet) :
    p.decoded wheel = p.motion wheel ↔ p.Slow := by
  unfold decoded motion Slow
  rw [MouseEvent.mk.injEq, neg_inj, signed_eq_nineBit_iff, signed_eq_nineBit_iff]
  tauto

end Packet

/-! ## Framing -/

namespace MouseState

variable {assembly : Assembly} {wheel : Bool} {bytes : List UInt8} {byte : UInt8} {p : Packet}

def lengthOf (wheel : Bool) : Nat := if wheel then 4 else 3

/-- The packet being assembled starts with these bytes. -/
structure Filling (wheel : Bool) (assembly : Assembly) (bytes : List UInt8) : Prop where
  index : assembly.packetIndex = bytes.length
  length : assembly.packetLen = lengthOf wheel
  holds : ∀ i < bytes.length, assembly.packet[i]? = bytes[i]?

/-- Storing the next byte. -/
theorem Filling.set (h : Filling wheel assembly bytes) (hindex : assembly.packetIndex < 4) :
    ∀ i < (bytes ++ [byte]).length,
      (assembly.packet.set assembly.packetIndex byte hindex)[i]? = (bytes ++ [byte])[i]? := by
  intro i hi
  rw [List.length_append, List.length_singleton] at hi
  rw [Vector.getElem?_set]
  by_cases hlast : assembly.packetIndex = i
  · rw [if_pos hlast, ← hlast, h.index, List.getElem?_concat_length]
  · rw [if_neg hlast]
    have hlt : i < bytes.length := by
      have := h.index
      omega
    rw [h.holds i hlt, List.getElem?_append_left hlt]

/-- The byte is not skipped. -/
theorem Filling.started (h : Filling wheel assembly bytes)
    (hframed : bytes = [] → byte &&& 0x08 ≠ 0) :
    ¬ (assembly.packetIndex = 0 ∧ byte &&& 0x08 = 0) := by
  rintro ⟨hzero, hbit⟩
  exact hframed (List.length_eq_zero_iff.mp (h.index.symm.trans hzero)) hbit

/-- A byte inside a packet. -/
theorem Filling.more (h : Filling wheel assembly bytes) (hframed : bytes = [] → byte &&& 0x08 ≠ 0)
    (hmore : bytes.length + 1 < lengthOf wheel) :
    ∃ assembly', assemble assembly byte = (none, assembly') ∧
      Filling wheel assembly' (bytes ++ [byte]) := by
  have hindex := h.index
  have hlength := h.length
  have hbound := Nat.lt_of_lt_of_le assembly.index_lt assembly.len_le
  unfold assemble
  rw [if_neg (h.started hframed), dif_pos (by omega)]
  refine ⟨_, rfl, ?_, hlength, h.set hbound⟩
  show assembly.packetIndex + 1 = _
  rw [List.length_append, List.length_singleton, hindex]

/-- The last byte of a packet. -/
theorem Filling.last (h : Filling wheel assembly bytes) (hframed : bytes = [] → byte &&& 0x08 ≠ 0)
    (hlast : bytes.length + 1 = lengthOf wheel) :
    ∃ packet assembly', assemble assembly byte =
        (if packet[0] &&& 0xc0 ≠ 0 then none else some (event packet (lengthOf wheel)),
          assembly') ∧
      Filling wheel assembly' [] ∧
      ∀ i < (bytes ++ [byte]).length, packet[i]? = (bytes ++ [byte])[i]? := by
  have hindex := h.index
  have hlength := h.length
  have hbound := Nat.lt_of_lt_of_le assembly.index_lt assembly.len_le
  unfold assemble
  rw [if_neg (h.started hframed), dif_neg (by omega), ← hlength]
  refine ⟨assembly.packet.set assembly.packetIndex byte hbound,
    { assembly with
      packet := assembly.packet.set assembly.packetIndex byte hbound
      packetIndex := 0
      index_lt := Nat.zero_lt_of_lt assembly.index_lt },
    ?_, ⟨rfl, hlength, (fun i hi => nomatch hi)⟩, h.set hbound⟩
  dsimp only
  split
  · rfl
  · rfl

/-- The event of a packet with these bytes. -/
theorem event_eq_decoded {packet : Vector UInt8 4}
    (hpacket : ∀ i < (p.bytes wheel).length, packet[i]? = (p.bytes wheel)[i]?) :
    packet.get 0 = p.first ∧ event packet (lengthOf wheel) = p.decoded wheel := by
  have hget : ∀ i (hi : i < 4) byte, packet[i]? = some byte → packet[i] = byte := by
    intro i hi byte hbyte
    rw [Vector.getElem?_eq_getElem hi] at hbyte
    exact Option.some.inj hbyte
  have hlength : 3 ≤ (p.bytes wheel).length := by
    unfold Packet.bytes
    rw [List.length_append]
    exact Nat.le_add_right 3 _
  have hfirst := hget 0 (by decide) p.first (hpacket 0 (by omega))
  have hsecond := hget 1 (by decide) p.second (hpacket 1 (by omega))
  have hthird := hget 2 (by decide) p.third (hpacket 2 (by omega))
  refine ⟨hfirst, ?_⟩
  unfold event Packet.decoded
  rw [hfirst, hsecond, hthird]
  cases wheel with
  | false => rfl
  | true =>
      rw [hget 3 (by decide) p.fourth (hpacket 3 (Nat.lt_succ_self 3))]
      exact congrArg (MouseEvent.mk _ _ · _) (Packet.signed_nibble p.fourth)

/-- The rest of a packet. -/
theorem Filling.finish (hframed : p.Framed) (rest : List UInt8) :
    ∀ {assembly : Assembly} {bytes : List UInt8}, Filling wheel assembly bytes →
      rest ≠ [] → bytes ++ rest = p.bytes wheel →
      outputs assemble assembly rest = (if p.inRange then [p.decoded wheel] else []) ∧
        Filling wheel (after assemble assembly rest) [] := by
  have hlength : (p.bytes wheel).length = lengthOf wheel := by cases wheel <;> rfl
  induction rest with
  | nil => exact fun _ hne => absurd rfl hne
  | cons byte rest ih =>
      intro assembly bytes h _ hbytes
      have hsum := congrArg List.length hbytes
      rw [hlength, List.length_append, List.length_cons] at hsum
      have hstart : bytes = [] → byte &&& 0x08 ≠ 0 := by
        rintro rfl
        rw [(List.cons.inj hbytes).1]
        exact hframed
      by_cases hrest : rest = []
      · -- the packet is complete
        subst hrest
        obtain ⟨packet, assembly', hstep, hfilling, hpacket⟩ := h.last hstart hsum
        rw [hbytes] at hpacket
        obtain ⟨hfirst, hevent⟩ := event_eq_decoded hpacket
        change packet[0] = p.first at hfirst
        rw [hfirst, hevent] at hstep
        rw [outputs, after, hstep]
        refine ⟨?_, hfilling⟩
        unfold Packet.inRange
        by_cases hover : p.first &&& 0xc0 = 0
        · simp [hover, outputs]
        · simp [hover, outputs]
      · have hpos : 0 < rest.length := List.length_pos_of_ne_nil hrest
        obtain ⟨assembly', hstep, hfilling⟩ := h.more hstart (by omega)
        rw [outputs, after, hstep]
        exact ih hfilling hrest (by rw [List.append_assoc]; exact hbytes)

/-- Every packet is decoded by itself. -/
theorem outputs_packets (packets : List Packet) (hframed : ∀ p ∈ packets, p.Framed) :
    ∀ {assembly : Assembly}, Filling wheel assembly [] →
      outputs assemble assembly (packets.flatMap (Packet.bytes wheel)) =
        (packets.filter Packet.inRange).map (Packet.decoded wheel) := by
  induction packets with
  | nil => exact fun _ => rfl
  | cons p packets ih =>
      intro assembly h
      obtain ⟨hevent, hnext⟩ := Filling.finish (hframed p List.mem_cons_self) (p.bytes wheel) h
        (List.cons_ne_nil _ _) rfl
      rw [List.flatMap_cons, outputs_append, hevent,
        ih (fun q hq => hframed q (List.mem_cons_of_mem _ hq)) hnext, List.filter_cons]
      by_cases hrange : p.inRange = true
      · rw [if_pos hrange, if_pos hrange]
        rfl
      · rw [if_neg hrange, if_neg hrange]
        rfl

end MouseState

/-- **Mouse packets decode to signed motion** exactly when they are slow. For every sequence of
packets from a packet boundary, with pops anywhere between the bytes and never more than 128
events pending: the events popped, then those pending, are the earlier ones and one for each
packet without overflow bits, with its nine-bit movements, if and only if the sign bits of
each of these packets repeat the top bits of its bytes. -/
theorem packets_decoded_iff {mouse : MouseState} {wheel : Bool} {packets : List Packet}
    {inputs : List MouseInput} (hindex : mouse.assembly.packetIndex = 0)
    (hlength : mouse.assembly.packetLen = if wheel then 4 else 3)
    (hframed : ∀ p ∈ packets, p.Framed)
    (hbytes : MouseState.bytesOf inputs = packets.flatMap (Packet.bytes wheel))
    (hroom : Each (fun s i => (MouseState.step s i).2) MouseState.Room mouse inputs) :
    outputs MouseState.step mouse inputs ++ (after MouseState.step mouse inputs).queue.toList =
        mouse.queue.toList ++ (packets.filter Packet.inRange).map (Packet.motion wheel) ↔
      ∀ p ∈ packets, p.inRange = true → p.Slow := by
  have hfilling : MouseState.Filling wheel mouse.assembly [] :=
    ⟨hindex, hlength, (fun i hi => nomatch hi)⟩
  rw [MouseState.popped_append_pending inputs mouse hroom, hbytes,
    MouseState.outputs_packets packets hframed hfilling, List.append_cancel_left_eq,
    List.map_inj_left]
  refine forall_congr' fun p => ?_
  rw [List.mem_filter, and_imp, Packet.decoded_eq_motion_iff]

/-- One step to the left and two up, with the wheel. -/
theorem packets_decoded_iff_slow :
    outputs MouseState.step (MouseState.new true)
        [.byte 0x18, .byte 0xff, .pop, .byte 0x02, .byte 0x0f, .pop] ++
      (after MouseState.step (MouseState.new true)
        [.byte 0x18, .byte 0xff, .pop, .byte 0x02, .byte 0x0f, .pop]).queue.toList =
      [⟨-1, -2, -1, 0⟩] := by
  have hdecoded := @packets_decoded_iff (MouseState.new true) true [⟨0x18, 0xff, 0x02, 0x0f⟩]
    [.byte 0x18, .byte 0xff, .pop, .byte 0x02, .byte 0x0f, .pop] rfl rfl
    (fun p hp => by rw [List.mem_singleton.mp hp, Packet.Framed]; decide) rfl
    ⟨fun _ => by decide, fun _ => by decide +kernel, trivial, fun _ => by decide +kernel,
      fun _ => by decide +kernel, trivial, trivial⟩
  exact hdecoded.mpr fun p hp _ => by rw [List.mem_singleton.mp hp, Packet.Slow]; decide

/-- A fast movement of 200 to the right is decoded as one of 56 to the left. -/
theorem fast_motion_reversed :
    Packet.Framed ⟨0x08, 200, 0, 0⟩ ∧ Packet.inRange ⟨0x08, 200, 0, 0⟩ = true ∧
    outputs MouseState.step (MouseState.new false)
      ((Packet.bytes false ⟨0x08, 200, 0, 0⟩).map .byte ++ [.pop]) = [⟨-56, 0, 0, 0⟩] ∧
    Packet.motion false ⟨0x08, 200, 0, 0⟩ = ⟨200, 0, 0, 0⟩ := by
  unfold Packet.Framed
  decide +kernel

end GenericKernel.Input
