import GenericKernel.Drivers.Input

/-!
# Shift and Caps Lock

The decoder keeps one bit for two shift keys: the press of either sets it, the
release of either clears it. What the keys themselves do is read off the scancode
stream (`held`, `pressedOdd`).

* **state** — the three bits of the decoder as functions of the stream
  (`after_decodeScancode`);
* **result** — a printable key is decoded by the law of the physical keys exactly
  when the shift bit is right, which it is unless one shift key was released last
  and the other one is still down (`shift_follows_keys_iff`).
-/

namespace GenericKernel.Input

open GenericKernel.Lib

/-! ## The stream -/

/-- The codes of a stream, each with whether an `0xe0` stands before it. -/
def strokes : Bool → List UInt8 → List (Bool × UInt8)
  | _, [] => []
  | extended, code :: rest =>
      if code = 0xe0 then strokes true rest else (extended, code) :: strokes false rest

/-- The next code is prefixed. -/
def extendedNext : Bool → List UInt8 → Bool
  | extended, [] => extended
  | _, code :: rest => extendedNext (code = 0xe0) rest

/-- Whether a stroke presses or releases one of these keys; bit 7 marks a release. -/
def keyEvent (keys : List UInt8) (stroke : Bool × UInt8) : Option Bool :=
  if stroke.1 = false ∧ stroke.2 &&& 0x7f ∈ keys then some (stroke.2 &&& 0x80 = 0) else none

/-- The presses (`true`) and releases of these keys, without prefix. -/
def events (keys : List UInt8) (codes : List UInt8) : List Bool :=
  (strokes false codes).filterMap (keyEvent keys)

def LEFT_SHIFT : UInt8 := 0x2a

def RIGHT_SHIFT : UInt8 := 0x36

def CAPS_LOCK : UInt8 := 0x3a

/-- The key is down after these codes. -/
def held (key : UInt8) (codes : List UInt8) : Bool := (events [key] codes).getLast? = some true

def shiftHeld (codes : List UInt8) : Bool := held LEFT_SHIFT codes || held RIGHT_SHIFT codes

/-- The key was pressed an odd number of times. -/
def pressedOdd (key : UInt8) (codes : List UInt8) : Bool := (events [key] codes).count true % 2 = 1

/-- A shift key is down, but the last event of a shift key was a release. -/
def OneShiftLeft (codes : List UInt8) : Prop :=
  shiftHeld codes = true ∧ (events [LEFT_SHIFT, RIGHT_SHIFT] codes).getLast? ≠ some true

/-! ## The decoder's bits -/

namespace Keyboard

/-- Other codes are no event of a shift key. -/
theorem keyEvent_shift_none {code : UInt8} (h : code ∉ [0x2a, 0x36, 0xaa, 0xb6]) :
    keyEvent [LEFT_SHIFT, RIGHT_SHIFT] (false, code) = none := by
  revert h
  exact forall_byte (P := fun code => code ∉ [0x2a, 0x36, 0xaa, 0xb6] →
    keyEvent [LEFT_SHIFT, RIGHT_SHIFT] (false, code) = none) (by decide +kernel) code

/-- Other codes do not press Caps Lock. -/
theorem keyEvent_caps_ne {code : UInt8} (h : code ≠ 0x3a) :
    (keyEvent [CAPS_LOCK] (false, code) == some true) = false := by
  revert h
  exact forall_byte (P := fun code => code ≠ 0x3a →
    (keyEvent [CAPS_LOCK] (false, code) == some true) = false) (by decide +kernel) code

/-- What one code does to the bits. -/
theorem decodeScancode_state (kb : Keyboard) (code : UInt8) : (kb.decodeScancode code).2 =
    if code = 0xe0 then { kb with extended := true }
    else
      { shift := (keyEvent [LEFT_SHIFT, RIGHT_SHIFT] (kb.extended, code)).getD kb.shift
        capsLock := kb.capsLock ^^ (keyEvent [CAPS_LOCK] (kb.extended, code) == some true)
        extended := false } := by
  obtain ⟨shift, capsLock, extended⟩ := kb
  unfold decodeScancode
  by_cases hcode : code = 0xe0
  · rw [if_pos hcode, if_pos hcode]
  · rw [if_neg hcode, if_neg hcode]
    cases extended with
    | true =>
        -- a prefixed code is no event
        have hstate : (⟨shift, capsLock, false⟩ : Keyboard) =
            ⟨shift, capsLock ^^ false, false⟩ := by rw [Bool.xor_false]
        dsimp only
        rw [if_pos rfl]
        split
        · exact hstate
        · split <;> exact hstate
    | false =>
        have hquiet (h : code ∉ [0x2a, 0x36, 0xaa, 0xb6]) (h' : code ≠ 0x3a) :
            (⟨shift, capsLock, false⟩ : Keyboard) =
              { shift := (keyEvent [LEFT_SHIFT, RIGHT_SHIFT] (false, code)).getD shift
                capsLock := capsLock ^^ (keyEvent [CAPS_LOCK] (false, code) == some true)
                extended := false } := by
          rw [keyEvent_shift_none h, keyEvent_caps_ne h', Option.getD_none, Bool.xor_false]
        dsimp only
        rw [if_neg (by decide)]
        split
        case h_1 | h_2 | h_3 | h_4 | h_5 => cases capsLock <;> rfl
        case h_6 | h_7 | h_8 | h_9 | h_10 => exact hquiet (by decide) (by decide)
        case h_11 hleft hright hleft' hright' hcaps _ _ _ _ _ =>
          have hother : code ∉ [0x2a, 0x36, 0xaa, 0xb6] := by
            simpa using ⟨hleft, hright, hleft', hright'⟩
          split
          · exact hquiet hother hcaps
          · exact hquiet hother hcaps

/-- One more stroke in front, for the shift bit. -/
theorem getLast?_events (keys : List UInt8) (stroke : Bool × UInt8)
    (rest : List (Bool × UInt8)) (shift : Bool) :
    ((stroke :: rest).filterMap (keyEvent keys)).getLast?.getD shift =
      (rest.filterMap (keyEvent keys)).getLast?.getD ((keyEvent keys stroke).getD shift) := by
  cases hevent : keyEvent keys stroke with
  | none => rw [List.filterMap_cons_none hevent, Option.getD_none]
  | some press => rw [List.filterMap_cons_some hevent, List.getLast?_cons, Option.getD_some,
      Option.getD_some]

/-- One more stroke in front, for the Caps Lock bit. -/
theorem odd_events (keys : List UInt8) (stroke : Bool × UInt8) (rest : List (Bool × UInt8)) :
    (((stroke :: rest).filterMap (keyEvent keys)).count true % 2 == 1) =
      ((keyEvent keys stroke == some true) ^^
        ((rest.filterMap (keyEvent keys)).count true % 2 == 1)) := by
  cases hevent : keyEvent keys stroke with
  | none => rw [List.filterMap_cons_none hevent, Option.none_beq_some, Bool.false_xor]
  | some press =>
      rw [List.filterMap_cons_some hevent]
      cases press with
      | false =>
          rw [List.count_cons_of_ne (by decide), show (some false == some true) = false from rfl,
            Bool.false_xor]
      | true =>
          rw [List.count_cons_self]
          generalize (rest.filterMap (keyEvent keys)).count true = n
          rcases Nat.mod_two_eq_zero_or_one n with hn | hn
          · simp [Nat.add_mod, hn]
          · simp [Nat.add_mod, hn]

/-- The bits after a stream, from any state. -/
theorem after_decodeScancode (codes : List UInt8) : ∀ kb : Keyboard,
    after decodeScancode kb codes =
      { shift := ((strokes kb.extended codes).filterMap
          (keyEvent [LEFT_SHIFT, RIGHT_SHIFT])).getLast?.getD kb.shift
        capsLock := kb.capsLock ^^
          (((strokes kb.extended codes).filterMap (keyEvent [CAPS_LOCK])).count true % 2 == 1)
        extended := extendedNext kb.extended codes } := by
  induction codes with
  | nil =>
      intro kb
      show kb = ⟨kb.shift, kb.capsLock ^^ false, kb.extended⟩
      rw [Bool.xor_false]
  | cons code codes ih =>
      intro kb
      rw [after, ih, decodeScancode_state, strokes, extendedNext]
      by_cases hcode : code = 0xe0
      · rw [if_pos hcode, if_pos hcode, decide_eq_true hcode]
      · rw [if_neg hcode, if_neg hcode, decide_eq_false hcode, getLast?_events, odd_events,
          ← Bool.xor_assoc]

/-- A key of the two tables has none of the other codes. -/
theorem printable {code : UInt8} (h : (letter code).isSome ∨ (pair code).isSome) :
    code ∉ [0xe0, 0x2a, 0x36, 0xaa, 0xb6, 0x3a, 0x01, 0x0f, 0x1c, 0x0e, 0x58] ∧
      code &&& 0x80 = 0 := by
  revert h
  exact forall_byte (P := fun code => (letter code).isSome ∨ (pair code).isSome →
    code ∉ [0xe0, 0x2a, 0x36, 0xaa, 0xb6, 0x3a, 0x01, 0x0f, 0x1c, 0x0e, 0x58] ∧
      code &&& 0x80 = 0) (by decide +kernel) code

/-- A printable key, without prefix. -/
theorem decode_printable (kb : Keyboard) {code : UInt8} (hplain : kb.extended = false)
    (h : (letter code).isSome ∨ (pair code).isSome) :
    kb.decodeScancode code = ((kb.scancodeToAscii code).map .char, kb) := by
  obtain ⟨hother, hbit⟩ := printable h
  simp only [List.mem_cons, List.not_mem_nil, or_false, not_or] at hother
  simp [decodeScancode, hplain, hother, hbit]

theorem decode_letter (kb : Keyboard) (code : UInt8) (hplain : kb.extended = false) {byte : UInt8}
    (hletter : letter code = some byte) : (kb.decodeScancode code).1 =
      some (.char (if kb.shift ^^ kb.capsLock then toAsciiUppercase byte else byte)) := by
  rw [kb.decode_printable hplain (.inl (by rw [hletter]; rfl)), scancodeToAscii, hletter]
  rfl

theorem decode_pair (kb : Keyboard) (code : UInt8) (hplain : kb.extended = false)
    {plain shifted : UInt8} (hletter : letter code = none)
    (hpair : pair code = some (plain, shifted)) : (kb.decodeScancode code).1 =
      some (.char (if kb.shift then shifted else plain)) := by
  rw [kb.decode_printable hplain (.inr (by rw [hpair]; rfl)), scancodeToAscii, hletter, hpair]
  rfl

theorem uppercase_ne {code byte : UInt8} (hletter : letter code = some byte) :
    toAsciiUppercase byte ≠ byte := by
  have hall : ∀ code, (letter code).isSome → (letter code).map toAsciiUppercase ≠ letter code :=
    forall_byte (by decide +kernel)
  intro hsame
  exact hall code (by rw [hletter]; rfl) (by rw [hletter, Option.map_some, hsame])

end Keyboard

/-! ## The physical keys -/

/-- If the last shift event was a press, that key is still down. -/
theorem shiftHeld_of_pressed {codes : List UInt8}
    (h : (events [LEFT_SHIFT, RIGHT_SHIFT] codes).getLast? = some true) :
    shiftHeld codes = true := by
  unfold events at h
  rw [List.getLast?_filterMap] at h
  obtain ⟨later, stroke, earlier, hsplit, hevent, hlater⟩ := List.findSome?_eq_some_iff.mp h
  -- the key of this stroke has no event later on
  have hheld : ∀ key ∈ [LEFT_SHIFT, RIGHT_SHIFT], stroke.2 &&& 0x7f = key →
      held key codes = true := by
    intro key hkey hstroke
    refine decide_eq_true ?_
    unfold events
    rw [List.getLast?_filterMap]
    refine List.findSome?_eq_some_iff.mpr ⟨later, stroke, earlier, hsplit, ?_, fun s hs => ?_⟩
    · unfold keyEvent at hevent ⊢
      by_cases hplain : stroke.1 = false ∧ stroke.2 &&& 0x7f ∈ [LEFT_SHIFT, RIGHT_SHIFT]
      · rw [if_pos hplain] at hevent
        rw [if_pos ⟨hplain.1, List.mem_singleton.mpr hstroke⟩]
        exact hevent
      · rw [if_neg hplain] at hevent
        cases hevent
    · have hnone := hlater s hs
      unfold keyEvent at hnone ⊢
      refine if_neg fun hs' => ?_
      rw [if_pos ⟨hs'.1, by rw [List.mem_singleton.mp hs'.2]; exact hkey⟩] at hnone
      cases hnone
  have hkey : stroke.2 &&& 0x7f ∈ [LEFT_SHIFT, RIGHT_SHIFT] := by
    by_contra hother
    unfold keyEvent at hevent
    rw [if_neg fun h => hother h.2] at hevent
    cases hevent
  have hdown := hheld _ hkey rfl
  unfold shiftHeld
  rcases List.mem_cons.mp hkey with hleft | hright
  · rw [← hleft, hdown, Bool.true_or]
  · rw [← List.mem_singleton.mp hright, hdown, Bool.or_true]

/-- The shift bit is the state of the keys, with one exception. -/
theorem shift_eq_shiftHeld_iff (codes : List UInt8) :
    (events [LEFT_SHIFT, RIGHT_SHIFT] codes).getLast?.getD false = shiftHeld codes ↔
      ¬ OneShiftLeft codes := by
  unfold OneShiftLeft
  by_cases hpress : (events [LEFT_SHIFT, RIGHT_SHIFT] codes).getLast? = some true
  · simp [hpress, shiftHeld_of_pressed hpress]
  · have hbit : (events [LEFT_SHIFT, RIGHT_SHIFT] codes).getLast?.getD false = false := by
      cases hlast : (events [LEFT_SHIFT, RIGHT_SHIFT] codes).getLast? with
      | none => rfl
      | some press =>
          cases press with
          | false => rfl
          | true => exact absurd hlast hpress
    rw [hbit, eq_comm, and_iff_left hpress, Bool.not_eq_true]

/-- **Shift follows the physical keys**, except while one shift key is down and the other was
released last. For every stream of scancodes and every printable key after it, outside a prefix:
a letter is upper case exactly as the shift keys and Caps Lock say, and another key gives its
shifted symbol exactly as the shift keys say, if and only if that exception does not
apply (or the two symbols are the same). -/
theorem shift_follows_keys_iff {codes : List UInt8} {code : UInt8}
    (hplain : extendedNext false codes = false) :
    (∀ byte, Keyboard.letter code = some byte →
      (((after Keyboard.decodeScancode Keyboard.new codes).decodeScancode code).1 =
        some (.char (if shiftHeld codes ^^ pressedOdd CAPS_LOCK codes then toAsciiUppercase byte
          else byte)) ↔ ¬ OneShiftLeft codes)) ∧
    (∀ plain shifted, Keyboard.letter code = none → Keyboard.pair code = some (plain, shifted) →
      (((after Keyboard.decodeScancode Keyboard.new codes).decodeScancode code).1 =
        some (.char (if shiftHeld codes then shifted else plain)) ↔
          (¬ OneShiftLeft codes ∨ plain = shifted))) := by
  have hstate := Keyboard.after_decodeScancode codes Keyboard.new
  have hextended : (after Keyboard.decodeScancode Keyboard.new codes).extended = false := by
    rw [hstate]
    exact hplain
  have hshift : (after Keyboard.decodeScancode Keyboard.new codes).shift =
      (events [LEFT_SHIFT, RIGHT_SHIFT] codes).getLast?.getD false := by
    rw [hstate]
    rfl
  have hcaps : (after Keyboard.decodeScancode Keyboard.new codes).capsLock =
      pressedOdd CAPS_LOCK codes := by
    rw [hstate]
    exact Bool.false_xor _
  refine ⟨fun byte hletter => ?_, fun plain shifted hletter hpair => ?_⟩
  · rw [Keyboard.decode_letter _ code hextended hletter, hshift, hcaps,
      ← shift_eq_shiftHeld_iff]
    have hne := Keyboard.uppercase_ne hletter
    generalize (events [LEFT_SHIFT, RIGHT_SHIFT] codes).getLast?.getD false = bit
    generalize pressedOdd CAPS_LOCK codes = caps
    cases bit <;> cases caps <;> cases shiftHeld codes <;> simp [hne, hne.symm]
  · rw [Keyboard.decode_pair _ code hextended hletter hpair, hshift,
      ← shift_eq_shiftHeld_iff]
    generalize (events [LEFT_SHIFT, RIGHT_SHIFT] codes).getLast?.getD false = bit
    cases bit <;> cases shiftHeld codes <;> simp [eq_comm]

/-- Upper case while a shift key is down, and a plain digit after its release. -/
theorem shift_follows_keys_iff_held :
    ((after Keyboard.decodeScancode Keyboard.new [0x2a]).decodeScancode 0x1e).1 =
        some (.char (ascii 'A')) ∧
      ((after Keyboard.decodeScancode Keyboard.new [0x2a, 0xaa]).decodeScancode 0x02).1 =
        some (.char (ascii '1')) := by
  have hdown : ¬ OneShiftLeft [0x2a] := fun h => h.2 (by decide +kernel)
  have hup : ¬ OneShiftLeft [0x2a, 0xaa] := fun h => absurd h.1 (by decide +kernel)
  have hletter := (@shift_follows_keys_iff [0x2a] 0x1e rfl).1 (ascii 'a') (by decide +kernel)
  have hdigit := (@shift_follows_keys_iff [0x2a, 0xaa] 0x02 rfl).2 (ascii '1') (ascii '!')
    (by decide +kernel) (by decide +kernel)
  exact ⟨hletter.mpr hdown, hdigit.mpr (.inl hup)⟩

/-- In a stream without prefixes: every key is pressed first, and its presses and releases
alternate. -/
def Alternates (codes : List UInt8) : Prop :=
  ∀ key, (events [key] codes).IsChain (· ≠ ·) ∧ (events [key] codes).head? ≠ some false

/-- Both shift keys are pressed and the left one is released: the letter is a small one. -/
theorem one_shift_left : Alternates [0x2a, 0x36, 0xaa, 0x1e] ∧
    held RIGHT_SHIFT [0x2a, 0x36, 0xaa] = true ∧
    pressedOdd CAPS_LOCK [0x2a, 0x36, 0xaa] = false ∧
    ((after Keyboard.decodeScancode Keyboard.new [0x2a, 0x36, 0xaa]).decodeScancode 0x1e).1 =
      some (.char (ascii 'a')) := by
  refine ⟨?_, by decide +kernel⟩
  unfold Alternates
  exact forall_byte (by decide +kernel)

end GenericKernel.Input
