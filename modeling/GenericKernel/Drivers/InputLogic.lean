import GenericKernel.Drivers.Input
import GenericKernel.Drivers.MouseLogic

/-!
# Input events reach user space

The decoded events of a device are the outputs of its decoder on everything that
arrived. At any time they are the events already copied followed by the pending
ones (`Accounted`), as long as no call takes an event whose destination then fails
validation.

* **one poll** — `poll_cases`;
* **step and run** — `Accounted.step`, `Accounted.run`;
* **result** — `events_delivered_iff`: nothing is lost exactly when every call made
  with an event pending names a writable user buffer.
-/

namespace GenericKernel.Input

open GenericKernel.Lib GenericKernel.Paging
open GenericKernel.Mm (UserSpace validateUserRange copyToUser openSpace)

/-- The keys that the queued scancodes still produce. -/
def Devices.pendingKeys (self : Devices) : List Key :=
  outputs Keyboard.decodeScancode self.keyboard self.scancodes.toList

/-- The decoder state behind the queued scancodes. -/
def Devices.keyboardAhead (self : Devices) : Keyboard :=
  after Keyboard.decodeScancode self.keyboard self.scancodes.toList

def Devices.pendingEvents (self : Devices) : List MouseEvent := self.mouse.queue.toList

/-! ## One poll -/

theorem Keyboard.pollKey_of_nil (kb : Keyboard) {ring : Ring UInt8 256} (h : ring.toList = []) :
    kb.pollKey ring = (none, kb, ring) := by
  rw [pollKey]
  split
  · rename_i hpop
    rw [ring.pop_of_nil h] at hpop
    obtain rfl := (Prod.mk.inj hpop).2
    rfl
  · rename_i hpop
    rw [ring.pop_of_nil h] at hpop
    simp at hpop

theorem Keyboard.pollKey_of_cons (kb : Keyboard) {ring ring' : Ring UInt8 256} {code : UInt8}
    (h : ring.pop = (some code, ring')) : kb.pollKey ring =
      match kb.decodeScancode code with
      | (some key, kb') => (some key, kb', ring')
      | (none, kb') => kb'.pollKey ring' := by
  rw [pollKey]
  split
  · rename_i hpop
    rw [h] at hpop
    simp at hpop
  · rename_i hpop
    rw [h] at hpop
    obtain ⟨rfl, rfl⟩ : _ ∧ _ := by simpa using hpop
    rfl

/-- `poll_key` returns the first pending key, whatever codes stand before it. -/
theorem Keyboard.pollKey_spec (codes : List UInt8) : ∀ (kb : Keyboard) (ring : Ring UInt8 256),
    ring.toList = codes → ∃ kb' ring',
      kb.pollKey ring = ((outputs decodeScancode kb codes).head?, kb', ring') ∧
      outputs decodeScancode kb' ring'.toList = (outputs decodeScancode kb codes).tail ∧
      after decodeScancode kb' ring'.toList = after decodeScancode kb codes := by
  induction codes with
  | nil =>
      intro kb ring hcodes
      exact ⟨kb, ring, kb.pollKey_of_nil hcodes, by rw [hcodes]; rfl, by rw [hcodes]⟩
  | cons code codes ih =>
      intro kb ring hcodes
      obtain ⟨ring', hpop, hrest⟩ := ring.pop_of_cons hcodes
      rw [kb.pollKey_of_cons hpop, outputs, after]
      rcases hdecode : kb.decodeScancode code with ⟨key, kb'⟩
      cases key with
      | none => exact ih kb' ring' hrest
      | some key => exact ⟨kb', ring', rfl, by rw [hrest]; rfl, by rw [hrest]⟩

/-- What `poll` does: the first pending key, else the first pending mouse event,
else nothing. Nothing else of the devices changes. -/
theorem Devices.poll_cases (s : Devices) :
    (∃ key keys s', s.pendingKeys = key :: keys ∧ s.poll = (some (keyPacket key), s') ∧
      s'.pendingKeys = keys ∧ s'.keyboardAhead = s.keyboardAhead ∧ s'.mouse = s.mouse ∧
      s'.copied = s.copied) ∨
    (∃ event events s', s.pendingKeys = [] ∧ s.pendingEvents = event :: events ∧
      s.poll = (some (mousePacket event), s') ∧ s'.pendingKeys = [] ∧
      s'.keyboardAhead = s.keyboardAhead ∧ s'.mouse.assembly = s.mouse.assembly ∧
      s'.pendingEvents = events ∧ s'.copied = s.copied) ∨
    (∃ s', s.pendingKeys = [] ∧ s.pendingEvents = [] ∧ s.poll = (none, s') ∧
      s'.pendingKeys = [] ∧ s'.keyboardAhead = s.keyboardAhead ∧ s'.mouse = s.mouse ∧
      s'.copied = s.copied) := by
  obtain ⟨kb', ring', hpoll, hkeys, hahead⟩ := Keyboard.pollKey_spec _ s.keyboard s.scancodes rfl
  have hpending : s.pendingKeys = outputs Keyboard.decodeScancode s.keyboard s.scancodes.toList := rfl
  rw [← hpending] at hpoll hkeys
  cases hfirst : s.pendingKeys with
  | cons key keys =>
      rw [hfirst] at hpoll hkeys
      refine .inl ⟨key, keys, { s with keyboard := kb', scancodes := ring' }, rfl, ?_, hkeys, hahead,
        rfl, rfl⟩
      rw [Devices.poll, hpoll]
      rfl
  | nil =>
      rw [hfirst] at hpoll hkeys
      cases hevents : s.pendingEvents with
      | cons event events =>
          obtain ⟨queue, hpop, hqueue⟩ := s.mouse.queue.pop_of_cons hevents
          refine .inr (.inl ⟨event, events,
            ⟨kb', ring', ⟨s.mouse.assembly, queue⟩, s.copied⟩, rfl, rfl, ?_, hkeys, hahead, rfl,
            hqueue, rfl⟩)
          rw [Devices.poll, hpoll]
          simp only [List.head?_nil, hpop]
      | nil =>
          have hpop := s.mouse.queue.pop_of_nil hevents
          refine .inr (.inr ⟨{ s with keyboard := kb', scancodes := ring' }, rfl, rfl, ?_, hkeys,
            hahead, rfl, rfl⟩)
          rw [Devices.poll, hpoll]
          simp only [List.head?_nil, hpop]

/-! ## One call -/

/-- The 24 bytes from `address` on are writable user memory. -/
def Writable (space : UserSpace) (address : Nat) : Prop :=
  ∃ offset, space.physicalMemoryOffset = some offset ∧
    userRangeAccessible space.memory space.activeRoot offset address PACKET_BYTES true = .ok true

theorem length_encode (packet : InputPacket) : packet.encode.length = PACKET_BYTES := by
  simp [InputPacket.encode, PACKET_BYTES]

theorem copyToUser_eq_ok {space : UserSpace} {address : Nat} (packet : InputPacket) :
    copyToUser space address packet.encode PACKET_BYTES = .ok () ↔ Writable space address := by
  have hne : PACKET_BYTES ≠ 0 := by decide
  unfold copyToUser validateUserRange Writable
  rw [length_encode, Fallible.reject, if_neg (lt_irrefl _), Fallible.ok_bind, if_neg hne]
  simp only [Fallible.bind_eq_ok]
  constructor
  · rintro ⟨offset, hoffset, accessible, haccess, hok⟩
    cases hspace : space.physicalMemoryOffset with
    | none => simp [hspace, Fallible.ofOption] at hoffset
    | some offset' =>
        obtain rfl : offset' = offset := by simpa [hspace, Fallible.ofOption] using hoffset
        cases accessible with
        | false => simp [Fallible.reject] at hok
        | true => exact ⟨offset', rfl, haccess⟩
  · rintro ⟨offset, hoffset, haccess⟩
    exact ⟨offset, by rw [hoffset]; rfl, true, haccess, rfl⟩

/-- The answers of the call. The event is taken before the buffer is validated. -/
theorem sysInputPoll_cases (space : UserSpace) (arg0 arg1 : Nat) (s : Devices) :
    ((wordSize ≤ arg1 ∨ arg1 < PACKET_BYTES) ∧
      (sysInputPoll space arg0 arg1).run s = (.ok EINVAL, s)) ∨
    (¬ (wordSize ≤ arg1 ∨ arg1 < PACKET_BYTES) ∧ ∃ s', s.poll = (none, s') ∧
      (sysInputPoll space arg0 arg1).run s = (.ok 0, s')) ∨
    (¬ (wordSize ≤ arg1 ∨ arg1 < PACKET_BYTES) ∧ ∃ packet s', s.poll = (some packet, s') ∧
      ((Writable space arg0 ∧ (sysInputPoll space arg0 arg1).run s =
          (.ok 1, { s' with copied := s'.copied ++ [(arg0, packet.encode)] })) ∨
        (¬ Writable space arg0 ∧ ((sysInputPoll space arg0 arg1).run s = (.ok EFAULT, s') ∨
          (sysInputPoll space arg0 arg1).run s = (.panic, s'))))) := by
  by_cases hshort : wordSize ≤ arg1 ∨ arg1 < PACKET_BYTES
  · refine .inl ⟨hshort, ?_⟩
    rcases hshort with h | h
    · simp [sysInputPoll, h]
    · simp [sysInputPoll, h]
  obtain ⟨hword, hlong⟩ := not_or.mp hshort
  rcases hpoll : s.poll with ⟨packet, s'⟩
  cases packet with
  | none => exact .inr (.inl ⟨hshort, s', rfl, by simp [sysInputPoll, hword, hlong, hpoll]⟩)
  | some packet =>
      refine .inr (.inr ⟨hshort, packet, s', rfl, ?_⟩)
      have hiff := @copyToUser_eq_ok space arg0 packet
      cases hcopy : copyToUser space arg0 packet.encode PACKET_BYTES with
      | ok u =>
          exact .inl ⟨hiff.mp hcopy, by simp [sysInputPoll, hword, hlong, hpoll, hcopy]⟩
      | error e =>
          refine .inr ⟨fun h => ?_, .inl (by simp [sysInputPoll, hword, hlong, hpoll, hcopy])⟩
          rw [hiff.mpr h] at hcopy
          cases hcopy
      | panic =>
          refine .inr ⟨fun h => ?_, .inr (by simp [sysInputPoll, hword, hlong, hpoll, hcopy])⟩
          rw [hiff.mpr h] at hcopy
          cases hcopy

/-! ## Runs -/

/-- The scancodes of a run. -/
def scancodesOf (actions : List Action) : List UInt8 :=
  actions.filterMap fun
    | .scancode code => some code
    | _ => none

/-- The mouse bytes of a run. -/
def mouseBytesOf (actions : List Action) : List UInt8 :=
  actions.filterMap fun
    | .mouseByte byte => some byte
    | _ => none

/-- The decoded event sequence of the keyboard. -/
def decodedKeys (codes : List UInt8) : List Key :=
  outputs Keyboard.decodeScancode Keyboard.new codes

/-- The decoded event sequence of the mouse. -/
def decodedEvents (wheel : Bool) (bytes : List UInt8) : List MouseEvent :=
  outputs MouseState.assemble (MouseState.new wheel).assembly bytes

/-- The action pushes into no full queue. -/
def NoOverflow (s : Devices) : Action → Prop
  | .scancode _ => s.scancodes.len < 256
  | .mouseByte byte => (MouseState.assemble s.mouse.assembly byte).1.isSome → s.mouse.queue.len < 128
  | .poll _ _ _ => True

/-- A call that would take an event has a buffer for it. -/
def HasBuffer (s : Devices) : Action → Prop
  | .poll space arg0 arg1 => arg1 < wordSize → PACKET_BYTES ≤ arg1 →
      s.pendingKeys ≠ [] ∨ s.pendingEvents ≠ [] → Writable space arg0
  | _ => True

/-- A call that returns `EFAULT` or `EINVAL` consumes no event. -/
def ErrorsConsumeNothing (s : Devices) : Action → Prop
  | .poll space arg0 arg1 => ∀ code s', (sysInputPoll space arg0 arg1).run s = (.ok code, s') →
      code = EFAULT ∨ code = EINVAL →
      s'.pendingKeys = s.pendingKeys ∧ s'.pendingEvents = s.pendingEvents
  | _ => True

/-- An event of one of the devices. -/
abbrev Event := Key ⊕ MouseEvent

/-- The packet of an event. -/
def packetOf : Event → InputPacket
  | .inl key => keyPacket key
  | .inr event => mousePacket event

/-- The keys among some events. -/
def keysOf (delivered : List Event) : List Key := delivered.filterMap Sum.getLeft?

/-- The mouse events among some events. -/
def mouseEventsOf (delivered : List Event) : List MouseEvent := delivered.filterMap Sum.getRight?

theorem keysOf_append (l l' : List Event) : keysOf (l ++ l') = keysOf l ++ keysOf l' :=
  List.filterMap_append

theorem mouseEventsOf_append (l l' : List Event) :
    mouseEventsOf (l ++ l') = mouseEventsOf l ++ mouseEventsOf l' := List.filterMap_append

/-- User memory holds the packets of the delivered events; these, followed by the
pending ones, are the decoded events of each device. -/
structure Accounted (wheel : Bool) (codes bytes : List UInt8) (delivered : List Event)
    (s : Devices) : Prop where
  copied : s.copied.map Prod.snd = delivered.map fun event => (packetOf event).encode
  keys : keysOf delivered ++ s.pendingKeys = decodedKeys codes
  events : mouseEventsOf delivered ++ s.pendingEvents = decodedEvents wheel bytes
  ahead : s.keyboardAhead = after Keyboard.decodeScancode Keyboard.new codes
  assembly : s.mouse.assembly =
    after MouseState.assemble (MouseState.new wheel).assembly bytes

theorem accounted_new (wheel : Bool) : Accounted wheel [] [] [] (Devices.new wheel) :=
  ⟨rfl, rfl, rfl, rfl, rfl⟩

section Step

variable {wheel : Bool} {codes bytes : List UInt8} {delivered : List Event} {s s' : Devices}

section Accounting

variable (h : Accounted wheel codes bytes delivered s)
include h

theorem Accounted.scancode {code : UInt8}
    (hroom : s.scancodes.len < 256) : Accounted wheel (codes ++ [code]) bytes delivered
      { s with scancodes := s.scancodes.push code } := by
  have hpush := s.scancodes.toList_push_of_lt code hroom
  have hahead : after Keyboard.decodeScancode s.keyboard s.scancodes.toList =
      after Keyboard.decodeScancode Keyboard.new codes := h.ahead
  refine ⟨h.copied, ?_, h.events, ?_, h.assembly⟩
  · have hkeys : ({ s with scancodes := s.scancodes.push code } : Devices).pendingKeys =
        s.pendingKeys ++ outputs Keyboard.decodeScancode
          (after Keyboard.decodeScancode Keyboard.new codes) [code] := by
      unfold Devices.pendingKeys
      rw [hpush, outputs_append, hahead]
    rw [hkeys, ← List.append_assoc, h.keys, decodedKeys, decodedKeys, outputs_append]
  · unfold Devices.keyboardAhead
    rw [hpush, after_append, after_append, hahead]

theorem Accounted.mouseByte {byte : UInt8}
    (hroom : NoOverflow s (.mouseByte byte)) : Accounted wheel codes (bytes ++ [byte]) delivered
      { s with mouse := s.mouse.pushByte byte } := by
  have hassembly := h.assembly
  have hafter : after MouseState.assemble (MouseState.new wheel).assembly (bytes ++ [byte]) =
      (MouseState.assemble s.mouse.assembly byte).2 := by
    rw [after_append, ← hassembly]
    rfl
  have hdecoded : decodedEvents wheel (bytes ++ [byte]) = decodedEvents wheel bytes ++
      (MouseState.assemble s.mouse.assembly byte).1.toList := by
    unfold decodedEvents
    rw [outputs_append, ← hassembly]
    simp [outputs]
  have hspace : s.mouse.Room (.byte byte) := fun hevent =>
    hroom (Option.isSome_iff_ne_none.mpr hevent)
  obtain ⟨hqueue, hnext⟩ := s.mouse.pushByte_pending byte hspace
  refine ⟨h.copied, h.keys, ?_, h.ahead, hnext.trans hafter.symm⟩
  have hpending : ({ s with mouse := s.mouse.pushByte byte } : Devices).pendingEvents =
      s.pendingEvents ++ (MouseState.assemble s.mouse.assembly byte).1.toList := hqueue
  rw [hpending, hdecoded, ← List.append_assoc, h.events]

/-- A polled event, copied out, moves from the pending to the delivered ones. -/
theorem Accounted.deliver {packet : InputPacket}
    (hpoll : s.poll = (some packet, s')) (address : Nat) :
    ∃ event, Accounted wheel codes bytes (delivered ++ [event])
      { s' with copied := s'.copied ++ [(address, packet.encode)] } := by
  rcases s.poll_cases with ⟨key, keys, s₁, hpending, hsome, hkeys, hahead, hmouse, hcopied⟩ |
    ⟨event, events, s₁, hnone, hpending, hsome, hkeys, hahead, hassembly, hevents, hcopied⟩ |
    ⟨s₁, _, _, hno, _⟩
  · obtain ⟨rfl, rfl⟩ : packet = keyPacket key ∧ s' = s₁ := by simpa [hpoll] using hsome
    refine ⟨.inl key, ?_, ?_, ?_, hahead.trans h.ahead, by rw [hmouse]; exact h.assembly⟩
    · rw [List.map_append, hcopied, h.copied, List.map_append]
      rfl
    · rw [keysOf_append, ← h.keys, hpending, List.append_assoc, ← hkeys]
      rfl
    · rw [mouseEventsOf_append, ← h.events]
      show mouseEventsOf delivered ++ [] ++ s'.mouse.queue.toList = _
      rw [List.append_nil, hmouse]
      rfl
  · obtain ⟨rfl, rfl⟩ : packet = mousePacket event ∧ s' = s₁ := by simpa [hpoll] using hsome
    refine ⟨.inr event, ?_, ?_, ?_, hahead.trans h.ahead, hassembly.trans h.assembly⟩
    · rw [List.map_append, hcopied, h.copied, List.map_append]
      rfl
    · rw [keysOf_append, ← h.keys, hnone, ← hkeys]
      show keysOf delivered ++ [] ++ _ = _
      rw [List.append_nil]
      rfl
    · rw [mouseEventsOf_append, ← h.events, hpending, List.append_assoc, ← hevents]
      rfl
  · cases hpoll.symm.trans hno

/-- A poll that finds nothing keeps the books. -/
theorem Accounted.empty
    (hpoll : s.poll = (none, s')) : Accounted wheel codes bytes delivered s' := by
  rcases s.poll_cases with ⟨_, _, _, _, hsome, _⟩ | ⟨_, _, _, _, _, hsome, _⟩ |
    ⟨s₁, hkeys, hevents, hnone, hkeys', hahead, hmouse, hcopied⟩
  · cases hpoll.symm.trans hsome
  · cases hpoll.symm.trans hsome
  · obtain rfl : s' = s₁ := by simpa [hpoll] using hnone
    refine ⟨by rw [hcopied]; exact h.copied, ?_, ?_, hahead.trans h.ahead,
      by rw [hmouse]; exact h.assembly⟩
    · rw [hkeys', ← hkeys]
      exact h.keys
    · unfold Devices.pendingEvents
      rw [hmouse]
      exact h.events

end Accounting

/-- Something is pending when a poll returns an event. -/
theorem pending_of_poll {packet : InputPacket} (hpoll : s.poll = (some packet, s')) :
    s.pendingKeys ≠ [] ∨ s.pendingEvents ≠ [] := by
  rcases s.poll_cases with ⟨key, keys, _, hpending, _⟩ | ⟨event, events, _, _, hpending, _⟩ |
    ⟨_, _, _, hnone, _⟩
  · exact .inl (by simp [hpending])
  · exact .inr (by simp [hpending])
  · cases hpoll.symm.trans hnone

/-- **Step**: every action keeps the books, a call if its buffer is valid when it
takes an event. -/
theorem Accounted.step (h : Accounted wheel codes bytes delivered s) {a : Action}
    (hroom : NoOverflow s a) (hbuffer : HasBuffer s a) (hstep : Input.step s a = some s') :
    ∃ delivered', Accounted wheel (codes ++ scancodesOf [a]) (bytes ++ mouseBytesOf [a])
      delivered' s' := by
  cases a with
  | scancode code =>
      obtain rfl := Option.some.inj hstep
      have hbytes : mouseBytesOf [.scancode code] = [] := rfl
      rw [hbytes, List.append_nil]
      exact ⟨delivered, h.scancode hroom⟩
  | mouseByte byte =>
      obtain rfl := Option.some.inj hstep
      have hcodes : scancodesOf [.mouseByte byte] = [] := rfl
      rw [hcodes, List.append_nil]
      exact ⟨delivered, h.mouseByte hroom⟩
  | poll space arg0 arg1 =>
      have hcodes : scancodesOf [.poll space arg0 arg1] = [] := rfl
      have hbytes : mouseBytesOf [.poll space arg0 arg1] = [] := rfl
      rw [hcodes, hbytes, List.append_nil, List.append_nil]
      rcases sysInputPoll_cases space arg0 arg1 s with ⟨_, hrun⟩ | ⟨_, s₁, hpoll, hrun⟩ |
        ⟨hlong, packet, s₁, hpoll, hcopy⟩
      · obtain rfl : s = s' := by simpa [Input.step, hrun] using hstep
        exact ⟨delivered, h⟩
      · obtain rfl : s₁ = s' := by simpa [Input.step, hrun] using hstep
        exact ⟨delivered, h.empty hpoll⟩
      · obtain ⟨hword, hsize⟩ := not_or.mp hlong
        have hwritable := hbuffer (Nat.not_le.mp hword) (Nat.not_lt.mp hsize) (pending_of_poll hpoll)
        rcases hcopy with ⟨_, hrun⟩ | ⟨hno, _⟩
        · obtain rfl : { s₁ with copied := s₁.copied ++ [(arg0, packet.encode)] } = s' := by
            simpa [Input.step, hrun] using hstep
          obtain ⟨event, hevent⟩ := h.deliver hpoll arg0
          exact ⟨_, hevent⟩
        · exact absurd hwritable hno

/-- **Run**: the books are kept along every run. -/
theorem Accounted.run (actions : List Action) : ∀ {s codes bytes delivered},
    Accounted wheel codes bytes delivered s → Along Input.step NoOverflow s actions →
    Along Input.step HasBuffer s actions → Lib.run Input.step s actions = some s' →
    ∃ delivered', Accounted wheel (codes ++ scancodesOf actions) (bytes ++ mouseBytesOf actions)
      delivered' s' := by
  induction actions with
  | nil =>
      intro s codes bytes delivered h _ _ hrun
      obtain rfl := Option.some.inj hrun
      exact ⟨delivered, by simpa [scancodesOf, mouseBytesOf] using h⟩
  | cons a actions ih =>
      intro s codes bytes delivered h hroom hbuffer hrun
      cases hstep : Input.step s a with
      | none => simp [Lib.run, hstep] at hrun
      | some s₁ =>
          rw [run_cons hstep] at hrun
          obtain ⟨delivered₁, h₁⟩ := h.step hroom.1 hbuffer.1 hstep
          have hcodes : scancodesOf (a :: actions) = scancodesOf [a] ++ scancodesOf actions := by
            rw [scancodesOf, ← List.singleton_append, List.filterMap_append]
            rfl
          have hbytes : mouseBytesOf (a :: actions) = mouseBytesOf [a] ++ mouseBytesOf actions := by
            rw [mouseBytesOf, ← List.singleton_append, List.filterMap_append]
            rfl
          rw [hcodes, hbytes, ← List.append_assoc, ← List.append_assoc]
          exact ih h₁ (hroom.2 s₁ hstep) (hbuffer.2 s₁ hstep) hrun

/-- Taking an event for an invalid buffer is the only way to lose one. -/
theorem errorsConsumeNothing_iff {a : Action} (hstep : Input.step s a = some s') :
    ErrorsConsumeNothing s a ↔ HasBuffer s a := by
  cases a with
  | scancode code => exact Iff.rfl
  | mouseByte byte => exact Iff.rfl
  | poll space arg0 arg1 =>
      rcases sysInputPoll_cases space arg0 arg1 s with ⟨hshort, hrun⟩ | ⟨_, s₁, hpoll, hrun⟩ |
        ⟨hlong, packet, s₁, hpoll, hcopy⟩
      · -- a refused length takes nothing
        constructor
        · intro _ hword hsize
          omega
        · intro _ code s₂ hrun' _
          obtain ⟨_, rfl⟩ : EINVAL = code ∧ s = s₂ := by simpa [hrun] using hrun'
          exact ⟨rfl, rfl⟩
      · -- nothing to take
        rcases s.poll_cases with ⟨_, _, _, _, hsome, _⟩ | ⟨_, _, _, _, _, hsome, _⟩ |
          ⟨_, hkeys, hevents, _⟩
        · cases hpoll.symm.trans hsome
        · cases hpoll.symm.trans hsome
        · constructor
          · rintro _ _ _ (hpending | hpending)
            · exact absurd hkeys hpending
            · exact absurd hevents hpending
          · intro _ code s₂ hrun' hcode
            obtain ⟨rfl, _⟩ : 0 = code ∧ s₁ = s₂ := by simpa [hrun] using hrun'
            rcases hcode with hcode | hcode <;> cases hcode
      · rcases hcopy with ⟨hwritable, hrun⟩ | ⟨hno, hrun | hrun⟩
        · constructor
          · exact fun _ _ _ _ => hwritable
          · intro _ code s₂ hrun' hcode
            obtain ⟨rfl, _⟩ : 1 = code ∧ _ := by simpa [hrun] using hrun'
            rcases hcode with hcode | hcode <;> cases hcode
        · -- the event is gone
          obtain ⟨hword, hsize⟩ := not_or.mp hlong
          constructor
          · intro herrors
            obtain ⟨hkeys, hevents⟩ := herrors EFAULT s₁ hrun (.inl rfl)
            rcases s.poll_cases with ⟨key, keys, s₂, hpending, hsome, hrest, _⟩ |
              ⟨event, events, s₂, _, hpending, hsome, _, _, _, hrest, _⟩ | ⟨_, _, _, hnone, _⟩
            · obtain ⟨_, rfl⟩ : packet = keyPacket key ∧ s₁ = s₂ := by simpa [hpoll] using hsome
              rw [hrest, hpending] at hkeys
              exact absurd (congrArg List.length hkeys) (by simp)
            · obtain ⟨_, rfl⟩ : packet = mousePacket event ∧ s₁ = s₂ := by simpa [hpoll] using hsome
              rw [hrest, hpending] at hevents
              exact absurd (congrArg List.length hevents) (by simp)
            · cases hpoll.symm.trans hnone
          · intro hbuffer
            exact absurd (hbuffer (Nat.not_le.mp hword) (Nat.not_lt.mp hsize) (pending_of_poll hpoll))
              hno
        · simp [Input.step, hrun] at hstep

end Step

/-- Every action of a completed run can be judged by either condition. -/
theorem along_errorsConsumeNothing_iff (actions : List Action) : ∀ {s s' : Devices},
    run step s actions = some s' →
    (Along step ErrorsConsumeNothing s actions ↔ Along step HasBuffer s actions) := by
  induction actions with
  | nil => exact fun _ => Iff.rfl
  | cons a actions ih =>
      intro s s' hrun
      cases hstep : step s a with
      | none => simp [run, hstep] at hrun
      | some s₁ =>
          rw [run_cons hstep] at hrun
          simp only [Along, errorsConsumeNothing_iff hstep, hstep, Option.some.injEq]
          constructor
          · rintro ⟨hfirst, hrest⟩
            exact ⟨hfirst, fun s₂ hs => (ih (hs ▸ hrun)).mp (hrest s₂ hs)⟩
          · rintro ⟨hfirst, hrest⟩
            exact ⟨hfirst, fun s₂ hs => (ih (hs ▸ hrun)).mpr (hrest s₂ hs)⟩

/-- Along every run without overflow: every call made with an event pending has a
valid buffer if and only if no failed call consumes an event and the packets in
user memory are those of an initial part of the decoded events of each device. -/
theorem events_delivered_iff (wheel : Bool) (actions : List Action) (s : Devices)
    (hrun : run step (Devices.new wheel) actions = some s)
    (hroom : Along step NoOverflow (Devices.new wheel) actions) :
    Along step HasBuffer (Devices.new wheel) actions ↔
      Along step ErrorsConsumeNothing (Devices.new wheel) actions ∧
      ∃ delivered : List Event,
        s.copied.map Prod.snd = (delivered.map fun event => (packetOf event).encode) ∧
        keysOf delivered <+: decodedKeys (scancodesOf actions) ∧
        mouseEventsOf delivered <+: decodedEvents wheel (mouseBytesOf actions) := by
  rw [along_errorsConsumeNothing_iff actions hrun]
  constructor
  · intro hbuffer
    obtain ⟨delivered, h⟩ := Accounted.run actions (accounted_new wheel) hroom hbuffer hrun
    exact ⟨hbuffer, delivered, h.copied, ⟨_, h.keys⟩, ⟨_, h.events⟩⟩
  · exact And.left

theorem writable_openSpace : Writable openSpace 4096 := ⟨0, rfl, by decide +kernel⟩

theorem events_delivered_oneKey : ∃ s, run step (Devices.new false)
      [.scancode 0x1e, .poll openSpace 4096 24] = some s ∧
    ∃ delivered : List Event,
      s.copied.map Prod.snd = (delivered.map fun event => (packetOf event).encode) ∧
      keysOf delivered <+: [.char (ascii 'a')] := by
  have hsome : (run step (Devices.new false)
      [.scancode 0x1e, .poll openSpace 4096 24]).isSome = true := by decide +kernel
  obtain ⟨s, hs⟩ := Option.isSome_iff_exists.mp hsome
  have hroom : Along step NoOverflow (Devices.new false)
      [.scancode 0x1e, .poll openSpace 4096 24] :=
    ⟨show 0 < 256 by decide, fun _ _ => ⟨trivial, fun _ _ => trivial⟩⟩
  have hbuffer : Along step HasBuffer (Devices.new false)
      [.scancode 0x1e, .poll openSpace 4096 24] :=
    ⟨trivial, fun _ _ => ⟨fun _ _ _ => writable_openSpace, fun _ _ => trivial⟩⟩
  obtain ⟨_, delivered, hcopied, hkeys, _⟩ := (events_delivered_iff false _ s hs hroom).mp hbuffer
  have hdecoded : decodedKeys (scancodesOf [.scancode 0x1e, .poll openSpace 4096 24]) =
      [.char (ascii 'a')] := by decide +kernel
  rw [hdecoded] at hkeys
  exact ⟨s, hs, delivered, hcopied, hkeys⟩

/-- A user space with no page at all. -/
def emptySpace : UserSpace := ⟨fun _ => 0, selfMapped, some 0⟩

/-- Two keys, a poll with a bad pointer, a poll with a good one. -/
def lostKey : List Action :=
  [.scancode 0x1e, .scancode 0x30, .poll emptySpace 4096 24, .poll openSpace 4096 24]

/-- The poll with the bad pointer takes the first key; the second one is what user
memory gets first. -/
theorem bad_pointer_loses_key : ∃ s, run step (Devices.new false) lostKey = some s ∧
    Along step NoOverflow (Devices.new false) lostKey ∧
    ¬ Along step ErrorsConsumeNothing (Devices.new false) lostKey ∧
    decodedKeys (scancodesOf lostKey) = [.char (ascii 'a'), .char (ascii 'b')] ∧
    s.copied = [(4096, (keyPacket (.char (ascii 'b'))).encode)] := by
  have hcopied : (run step (Devices.new false) lostKey).map Devices.copied =
      some [(4096, (keyPacket (.char (ascii 'b'))).encode)] := by decide +kernel
  obtain ⟨s, hs, hcopies⟩ := Option.map_eq_some_iff.mp hcopied
  refine ⟨s, hs, ⟨show 0 < 256 by decide, ?_⟩, ?_, by decide +kernel, hcopies⟩
  · intro s₁ h₁
    obtain rfl := Option.some.inj h₁
    exact ⟨show 1 < 256 by decide, fun _ _ => ⟨trivial, fun _ _ => ⟨trivial, fun _ _ => trivial⟩⟩⟩
  · rw [along_errorsConsumeNothing_iff lostKey hs]
    rintro ⟨_, hrest⟩
    obtain ⟨hbuffer, _⟩ := (hrest _ rfl).2 _ rfl
    obtain ⟨offset, hoffset, haccess⟩ := hbuffer (lt_wordSize (by decide)) (by decide)
      (.inl (by decide +kernel))
    obtain rfl : 0 = offset := Option.some.inj hoffset
    exact absurd haccess (by decide +kernel)

end GenericKernel.Input
