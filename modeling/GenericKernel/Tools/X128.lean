import Mathlib.Data.List.DropRight
import GenericKernel.Lib.Bytes

/-!
# The x128 assembler and reference emulator (`tools/x128.py`)

* `Python` — the built-ins the tool hands its texts to (`str.splitlines`, `str.isspace`,
  `str.lower`, `int`, `ast.literal_eval`). They are not part of the repository, so everything
  below is stated over arbitrary ones.
* `reg`, `imm`, `expanded`, `collect`, `encodeLine`, `assemble` — the two-pass assembler.
* `fetch`, `execute`, `run` — the emulator.

A Python string is the list of its characters. An `Error` keeps the place and the data of its
message; any other exception is `Raised.exception`.
-/

namespace GenericKernel.X128

open GenericKernel.Lib

abbrev Str := List Char

/-- What `ast.literal_eval` makes of a text. -/
inductive Literal where
  /-- A `str`, with the bytes of its `encode()` (`none`: `encode` raises). -/
  | text (utf8 : Option (List UInt8))
  /-- A literal of another type. -/
  | other
  /-- `ValueError` or `SyntaxError`. -/
  | invalid
  /-- Any other exception. -/
  | raised

/-- The Python built-ins the tool relies on. -/
structure Python where
  splitlines : Str → List Str
  isspace : Char → Bool
  lower : Str → Str
  /-- `int(text)`; `none` is `ValueError`. -/
  int : Str → Option Int
  /-- `int(text, 0)`, where the text itself says the base. -/
  intAuto : Str → Option Int
  literalEval : Str → Literal

/-- `text.strip()`. -/
def Python.strip (py : Python) (text : Str) : Str :=
  (text.dropWhile py.isspace).rdropWhile py.isspace

/-- `text.split(c, 1)`: the part before the first `c`, and the part after it if there is one. -/
def splitOnce (c : Char) : Str → Str × Option Str
  | [] => ([], none)
  | x :: xs => if x = c then ([], some xs) else ((x :: (splitOnce c xs).1), (splitOnce c xs).2)

/-- `text.split(None, 1)`: the first word, and the rest of the text after the blanks. -/
def Python.words (py : Python) (text : Str) : Str × Str :=
  let text := text.dropWhile py.isspace
  let blank := fun c => !py.isspace c
  (text.takeWhile blank, (text.dropWhile blank).dropWhile py.isspace)

inductive Op where
  | nop | movi | mov | add | sub | and | or | xor | cmpeq | jmp | jz | jnz | load8 | store8
  | out | halt
  deriving DecidableEq, Repr

/-- The keys of `OPS`, in its order. -/
def OPS : List (Str × Op) :=
  [("nop".toList, .nop), ("movi".toList, .movi), ("mov".toList, .mov), ("add".toList, .add),
   ("sub".toList, .sub), ("and".toList, .and), ("or".toList, .or), ("xor".toList, .xor),
   ("cmpeq".toList, .cmpeq), ("jmp".toList, .jmp), ("jz".toList, .jz), ("jnz".toList, .jnz),
   ("load8".toList, .load8), ("store8".toList, .store8), ("out".toList, .out),
   ("halt".toList, .halt)]

/-- The values of `OPS`. -/
def Op.code : Op → Nat
  | .nop => 0 | .movi => 1 | .mov => 2 | .add => 3 | .sub => 4 | .and => 5 | .or => 6 | .xor => 7
  | .cmpeq => 8 | .jmp => 9 | .jz => 10 | .jnz => 11 | .load8 => 12 | .store8 => 13 | .out => 14
  | .halt => 15

inductive Message where
  | expectedRegister (text : Str)
  | invalidRegister (text : Str)
  | registerOutOfRange (n : Int)
  | characterLiteral
  | invalidImmediate (text : Str)
  | invalidPuts
  | putsExpectsString
  | duplicateLabel (label : Str)
  | unknownInstruction (op : Str)
  | usage (op : Op)
  | imageExceedsRam
  | fetchFault (pc : Nat)
  | invalidInstruction (pc : Nat)
  | memoryFault (address : Nat)
  | unsupportedPort (value : Nat)
  | stepLimit

inductive Raised where
  /-- `Error(message)`. -/
  | error (message : Message)
  /-- `Error(f"line {line_no}: …")`. -/
  | errorAt (line : Nat) (message : Message)
  /-- An exception that is not an `Error`. -/
  | exception

/-- The `try … except Error` around one line. -/
def atLine (line : Nat) : Except Raised α → Except Raised α
  | .error (.error message) => .error (.errorAt line message)
  | result => result

def INSN : Nat := 20

def RAM : Nat := 64 * 1024

/-! ## The assembler -/

def reg (py : Python) (text : Str) : Except Raised Nat :=
  let text := py.lower (py.strip text)
  match text with
  | 'r' :: digits =>
    match py.int digits with
    | none => .error (.error (.invalidRegister text))
    | some n =>
      if 0 ≤ n ∧ n < 16 then .ok n.toNat else .error (.error (.registerOutOfRange n))
  | _ => .error (.error (.expectedRegister text))

abbrev Labels := List (Str × Nat)

/-- A text of at least three characters between two apostrophes. -/
def quoted (text : Str) : Prop :=
  3 ≤ text.length ∧ text.head? = some (Char.ofNat 39) ∧ text.getLast? = some (Char.ofNat 39)

instance (text : Str) : Decidable (quoted text) := by unfold quoted; infer_instance

def imm (py : Python) (labels : Labels) (text : Str) : Except Raised Nat :=
  let text := py.strip text
  match labels.lookup text with
  | some value => .ok value
  | none =>
    if quoted text then
      match py.literalEval text with
      | .text (some [byte]) => .ok byte.toNat
      | .text (some _) => .error (.error .characterLiteral)
      | _ => .error .exception
    else
      match py.intAuto text with
      | some value => .ok (value % 2 ^ 128).toNat
      | none => .error (.error (.invalidImmediate text))

/-- The two lines a `puts` makes of each byte. -/
def putsByte (lineNo : Nat) (byte : UInt8) : List (Nat × Str) :=
  [(lineNo, "movi r1, ".toList ++ Nat.toDigits 10 byte.toNat), (lineNo, "out 0, r1".toList)]

/-- One source line of `expanded`: without its comment, and a `puts` written out. -/
def expandLine (py : Python) (lineNo : Nat) (raw : Str) : Except Raised (List (Nat × Str)) :=
  let line := py.strip (splitOnce '#' raw).1
  if line = [] then .ok []
  else if "puts ".toList.isPrefixOf line then
    match py.literalEval (py.strip (line.drop 5)) with
    | .text (some bytes) => .ok (bytes.flatMap (putsByte lineNo))
    | .text none => .error .exception
    | .other => .error (.errorAt lineNo .putsExpectsString)
    | .invalid => .error (.errorAt lineNo .invalidPuts)
    | .raised => .error .exception
  else .ok [(lineNo, line)]

def expandFrom (py : Python) : Nat → List Str → Except Raised (List (Nat × Str))
  | _, [] => .ok []
  | lineNo, raw :: raws => do
    let out ← expandLine py lineNo raw
    let rest ← expandFrom py (lineNo + 1) raws
    return out ++ rest

def expanded (py : Python) (source : Str) : Except Raised (List (Nat × Str)) :=
  expandFrom py 1 (py.splitlines source)

/-- A line as the first pass sees it: the label it defines, and its instruction text. -/
structure Statement where
  label : Option Str
  text : Str
  deriving DecidableEq

/-- A line with a colon defines what stands before the first one, unless that is empty or has a
blank in it; then the whole line is instruction text. -/
def statement (py : Python) (line : Str) : Statement :=
  match splitOnce ':' line with
  | (_, none) => ⟨none, line⟩
  | (label, some rest) =>
    let label := py.strip label
    if label ≠ [] ∧ ¬ label.any py.isspace then ⟨some label, py.strip rest⟩ else ⟨none, line⟩

/-- `labels[label] = pc`, for a line that has a label. -/
def define (lineNo : Nat) (label : Option Str) (labels : Labels) (pc : Nat) :
    Except Raised Labels :=
  match label with
  | none => .ok labels
  | some label =>
    if (labels.lookup label).isSome then .error (.errorAt lineNo (.duplicateLabel label))
    else .ok ((label, pc) :: labels)

/-- The first pass: the labels, and the instruction texts that remain. -/
def collect (py : Python) : List (Nat × Str) → Labels → Nat →
    Except Raised (Labels × List (Nat × Str))
  | [], labels, _ => .ok (labels, [])
  | (lineNo, line) :: lines, labels, pc => do
    let s := statement py line
    let labels ← define lineNo s.label labels pc
    if s.text ≠ [] then
      let (labels, body) ← collect py lines labels (pc + INSN)
      return (labels, (lineNo, s.text) :: body)
    else
      collect py lines labels pc

/-- `rd`, `ra`, `rb` and `value`, all `0` until an operand sets them. -/
structure Fields where
  rd : Nat := 0
  ra : Nat := 0
  rb : Nat := 0
  value : Nat := 0

/-- The operands of one instruction. -/
def operandFields (py : Python) (labels : Labels) (op : Op) (a : List Str) :
    Except Raised Fields :=
  match op with
  | .nop => if a ≠ [] then .error (.error (.usage op)) else .ok {}
  | .movi =>
    match a with
    | [d, i] => return { rd := ← reg py d, value := ← imm py labels i }
    | _ => .error (.error (.usage op))
  | .mov =>
    match a with
    | [d, x] => return { rd := ← reg py d, ra := ← reg py x }
    | _ => .error (.error (.usage op))
  | .add | .sub | .and | .or | .xor =>
    match a with
    | [d, x, y] => return { rd := ← reg py d, ra := ← reg py x, rb := ← reg py y }
    | _ => .error (.error (.usage op))
  | .cmpeq =>
    match a with
    | [x, y] => return { ra := ← reg py x, rb := ← reg py y }
    | _ => .error (.error (.usage op))
  | .jmp | .jz | .jnz | .halt =>
    match a with
    | [i] => return { value := ← imm py labels i }
    | _ => .error (.error (.usage op))
  | .load8 =>
    match a with
    | [d, x, i] => return { rd := ← reg py d, ra := ← reg py x, value := ← imm py labels i }
    | _ => .error (.error (.usage op))
  | .store8 =>
    match a with
    | [x, y, i] => return { ra := ← reg py x, rb := ← reg py y, value := ← imm py labels i }
    | _ => .error (.error (.usage op))
  | .out =>
    match a with
    | [i, x] => return { value := ← imm py labels i, ra := ← reg py x }
    | _ => .error (.error (.usage op))

/-- The operand texts after the mnemonic. -/
def Python.operands (py : Python) (line : Str) : List Str :=
  let rest := (py.words line).2
  if rest = [] then [] else (rest.splitOn ',').map py.strip

/-- `bytes((OPS[op], rd, ra, rb)) + value.to_bytes(16, "little")`. -/
def encode (op : Op) (f : Fields) : Except Raised (List UInt8) :=
  if f.rd < 256 ∧ f.ra < 256 ∧ f.rb < 256 ∧ f.value < 2 ^ 128 then
    .ok ([op.code, f.rd, f.ra, f.rb].map UInt8.ofNat ++ leBytes 16 f.value)
  else .error .exception

/-- One instruction of the second pass. -/
def encodeLine (py : Python) (labels : Labels) (line : Str) : Except Raised (List UInt8) :=
  let mnemonic := py.lower (py.words line).1
  match OPS.lookup mnemonic with
  | none => .error (.error (.unknownInstruction mnemonic))
  | some op => do encode op (← operandFields py labels op (py.operands line))

def encodeBody (py : Python) (labels : Labels) : List (Nat × Str) → Except Raised (List UInt8)
  | [] => .ok []
  | (lineNo, line) :: body => do
    let bytes ← atLine lineNo (encodeLine py labels line)
    let image ← encodeBody py labels body
    return bytes ++ image

def assemble (py : Python) (source : Str) : Except Raised (List UInt8) := do
  let lines ← expanded py source
  let (labels, body) ← collect py lines [] 0
  encodeBody py labels body

/-! ## The emulator -/

/-- The fields of the twenty bytes at `pc`. -/
structure Insn where
  op : Nat
  rd : Nat
  ra : Nat
  rb : Nat
  value : Nat
  deriving DecidableEq, Repr

/-- `op, rd, ra, rb = mem[pc:pc+4]` and `value = int.from_bytes(mem[pc+4:pc+INSN], "little")`. -/
def fetch (mem : List UInt8) (pc : Nat) : Except Raised Insn :=
  match (mem.drop pc).take 4 with
  | [op, rd, ra, rb] =>
    .ok ⟨op.toNat, rd.toNat, ra.toNat, rb.toNat, leNat ((mem.drop (pc + 4)).take 16)⟩
  | _ => .error .exception

structure Cpu where
  mem : List UInt8
  r : List Nat
  pc : Nat
  zero : Bool
  output : List UInt8

/-- `xs[i]`: `IndexError` outside the list. -/
def index (xs : List α) (i : Nat) : Except Raised α :=
  match xs[i]? with
  | some x => .ok x
  | none => .error .exception

/-- `mem = bytearray(RAM); mem[:len(image)] = image`, for an image that fits. -/
def loaded (image : List UInt8) : List UInt8 :=
  image ++ List.replicate (RAM - image.length) 0

/-- `r[rd] = value`: `IndexError` outside the list. -/
def Cpu.setReg (cpu : Cpu) (rd value : Nat) : Except Raised Cpu :=
  if rd < cpu.r.length then .ok { cpu with r := cpu.r.set rd value } else .error .exception

/-- A step goes on with a new state, or `halt` returns. -/
inductive Stepped where
  | next (cpu : Cpu)
  | halted (status : Nat) (output : List UInt8)

/-- The branch of one opcode; `cpu.pc` is already `next_pc`. -/
def execute (cpu : Cpu) (op : Op) (insn : Insn) : Except Raised Stepped :=
  let value := insn.value
  match op with
  | .nop => .ok (.next cpu)
  | .movi => return .next (← cpu.setReg insn.rd value)
  | .mov => return .next (← cpu.setReg insn.rd (← index cpu.r insn.ra))
  | .add => do
    let sum := (← index cpu.r insn.ra) + (← index cpu.r insn.rb)
    return .next (← cpu.setReg insn.rd (sum % 2 ^ 128))
  | .sub => do
    let difference : Int := (← index cpu.r insn.ra) - (← index cpu.r insn.rb)
    return .next (← cpu.setReg insn.rd (difference % 2 ^ 128).toNat)
  | .and => return .next (← cpu.setReg insn.rd ((← index cpu.r insn.ra) &&& (← index cpu.r insn.rb)))
  | .or => return .next (← cpu.setReg insn.rd ((← index cpu.r insn.ra) ||| (← index cpu.r insn.rb)))
  | .xor => return .next (← cpu.setReg insn.rd ((← index cpu.r insn.ra) ^^^ (← index cpu.r insn.rb)))
  | .cmpeq => return .next { cpu with zero := (← index cpu.r insn.ra) == (← index cpu.r insn.rb) }
  | .jmp => .ok (.next { cpu with pc := value })
  | .jz => .ok (.next (if cpu.zero then { cpu with pc := value } else cpu))
  | .jnz => .ok (.next (if cpu.zero then cpu else { cpu with pc := value }))
  | .load8 => do
    let address := ((← index cpu.r insn.ra) + value) % 2 ^ 128
    if RAM ≤ address then .error (.error (.memoryFault address))
    else return .next (← cpu.setReg insn.rd (← index cpu.mem address).toNat)
  | .store8 => do
    let address := ((← index cpu.r insn.ra) + value) % 2 ^ 128
    if RAM ≤ address then .error (.error (.memoryFault address))
    else
      let byte := UInt8.ofNat (← index cpu.r insn.rb)
      let _ ← index cpu.mem address
      return .next { cpu with mem := cpu.mem.set address byte }
  | .out => do
    if value ≠ 0 then .error (.error (.unsupportedPort value))
    else return .next { cpu with output := cpu.output ++ [UInt8.ofNat (← index cpu.r insn.ra)] }
  | .halt => .ok (.halted (value % 2 ^ 32) cpu.output)

/-- `op in OPS.values()`. -/
def Op.ofCode? (code : Nat) : Option Op := (OPS.map Prod.snd).find? (fun op => op.code == code)

/-- One round of the emulator's loop. -/
def step (cpu : Cpu) : Except Raised Stepped := do
  if RAM - INSN < cpu.pc then .error (.error (.fetchFault cpu.pc))
  else
    let insn ← fetch cpu.mem cpu.pc
    match Op.ofCode? insn.op with
    | none => .error (.error (.invalidInstruction cpu.pc))
    | some op =>
      if 16 ≤ max insn.rd (max insn.ra insn.rb) then .error (.error (.invalidInstruction cpu.pc))
      else execute { cpu with pc := (cpu.pc + INSN) % 2 ^ 128 } op insn

/-- `for _ in range(steps)`. -/
def runFor : Nat → Cpu → Except Raised (Nat × List UInt8)
  | 0, _ => .error (.error .stepLimit)
  | steps + 1, cpu => do
    match ← step cpu with
    | .next cpu => runFor steps cpu
    | .halted status output => return (status, output)

def run (image : List UInt8) : Except Raised (Nat × List UInt8) :=
  if RAM < image.length then .error (.error .imageExceedsRam)
  else runFor 100000 ⟨loaded image, List.replicate 16 0, 0, false, []⟩

end GenericKernel.X128
