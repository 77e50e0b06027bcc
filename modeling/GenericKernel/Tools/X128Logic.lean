import GenericKernel.Lib.Fallible
import GenericKernel.Tools.X128

/-!
# What an accepted x128 source encodes

* `instructions` — the instruction texts of a list of statements, in order.
* `Denotes` — the number an operand text stands for: a register, an address of a label, a
  literal.
* `Encodes` — twenty bytes hold an instruction as written.
* `assemble_encodes` — the image of an accepted source is its instructions, twenty bytes each,
  and the emulator's `fetch` reads every one of them back.
-/

namespace GenericKernel.X128

open GenericKernel.Lib

/-! ## The program as written -/

/-- The instruction texts: what is left of the lines that have more than a label. -/
def instructions (stmts : List Statement) : List Str := (stmts.map Statement.text).filter (· ≠ [])

/-- The operand slots of an instruction. -/
inductive Role where
  | rd | ra | rb | imm
  deriving DecidableEq

/-- The operands in the order they are written. -/
@[simp] def Op.roles : Op → List Role
  | .nop => []
  | .movi => [.rd, .imm]
  | .mov => [.rd, .ra]
  | .add | .sub | .and | .or | .xor => [.rd, .ra, .rb]
  | .cmpeq => [.ra, .rb]
  | .jmp | .jz | .jnz | .halt => [.imm]
  | .load8 => [.rd, .ra, .imm]
  | .store8 => [.ra, .rb, .imm]
  | .out => [.imm, .ra]

/-- The slot of an encoded instruction. -/
@[simp] def Insn.field (insn : Insn) : Role → Nat
  | .rd => insn.rd
  | .ra => insn.ra
  | .rb => insn.rb
  | .imm => insn.value

/-- A register operand is `r` and its number, in either case. -/
def IsRegister (py : Python) (text : Str) (n : Nat) : Prop :=
  n < 16 ∧ ∃ digits, py.lower (py.strip text) = 'r' :: digits ∧ py.int digits = some (n : Int)

/-- A literal is a quoted byte, or an integer taken modulo `2^128`. -/
def IsLiteral (py : Python) (text : Str) (v : Nat) : Prop :=
  if quoted text then ∃ byte, py.literalEval text = .text (some [byte]) ∧ v = byte.toNat
  else ∃ z, py.intAuto text = some z ∧ (v : Int) = z % 2 ^ 128

/-- An immediate operand is a label's address (twenty bytes for each instruction before the
definition), or, when no line defines it, a literal. -/
structure IsImmediate (py : Python) (stmts : List Statement) (text : Str) (v : Nat) : Prop where
  label : ∀ k s, stmts[k]? = some s → s.label = some (py.strip text) →
    v = 20 * (instructions (stmts.take k)).length
  literal : (∀ s ∈ stmts, s.label ≠ some (py.strip text)) → IsLiteral py (py.strip text) v

def Denotes (py : Python) (stmts : List Statement) : Role → Str → Nat → Prop
  | .imm => IsImmediate py stmts
  | _ => IsRegister py

/-- The fields of `insn` are the instruction `line` as written. -/
structure Encodes (py : Python) (stmts : List Statement) (line : Str) (op : Op) (insn : Insn) :
    Prop where
  mnemonic : OPS.lookup (py.lower (py.words line).1) = some op
  opcode : insn.op = op.code
  operands : List.Forall₂ (fun role text => Denotes py stmts role text (insn.field role))
    op.roles (py.operands line)
  unused : ∀ role, role ∉ op.roles → insn.field role = 0
  registers : insn.rd < 16 ∧ insn.ra < 16 ∧ insn.rb < 16
  immediate : insn.value < 2 ^ 128

/-! ## The first pass -/

@[simp] theorem atLine_eq_ok {line : Nat} {x : Except Raised α} {a : α} :
    atLine line x = .ok a ↔ x = .ok a := by
  cases x with
  | ok _ => simp [atLine]
  | error e => cases e <;> simp [atLine]

@[simp] theorem instructions_nil : instructions [] = [] := rfl

theorem instructions_cons (s : Statement) (stmts : List Statement) :
    instructions (s :: stmts) =
      if s.text ≠ [] then s.text :: instructions stmts else instructions stmts := by
  by_cases h : s.text = [] <;> simp [instructions, h]

theorem length_instructions_cons (s : Statement) (stmts : List Statement) :
    (instructions (s :: stmts)).length =
      (if s.text ≠ [] then 1 else 0) + (instructions stmts).length := by
  rw [instructions_cons]
  split <;> simp; omega

/-- The statements of expanded lines. -/
def statements (py : Python) (lines : List (Nat × Str)) : List Statement :=
  lines.map (fun line => statement py line.2)

/-- `labels` extended by the labels of `stmts`, the first of which stands at `pc`. -/
structure Resolves (stmts : List Statement) (pc : Nat) (labels labels' : Labels) : Prop where
  kept : ∀ l v, labels.lookup l = some v → labels'.lookup l = some v
  defined : ∀ k s l, stmts[k]? = some s → s.label = some l →
    labels'.lookup l = some (pc + 20 * (instructions (stmts.take k)).length)
  absent : ∀ l, labels.lookup l = none → (∀ s ∈ stmts, s.label ≠ some l) → labels'.lookup l = none

variable {labels : Labels} {py : Python} {stmts : List Statement} {op : Op}

/-- What `define` makes of the table. -/
theorem define_ok {lineNo pc : Nat} {label : Option Str} {labels' : Labels}
    (h : define lineNo label labels pc = .ok labels') :
    (∀ l v, labels.lookup l = some v → labels'.lookup l = some v) ∧
    (∀ l, label = some l → labels'.lookup l = some pc) ∧
    (∀ l, labels.lookup l = none → label ≠ some l → labels'.lookup l = none) := by
  cases label with
  | none =>
    obtain rfl : labels = labels' := by simpa [define] using h
    simp
  | some name =>
    simp only [define] at h
    split at h
    · cases h
    · rename_i hfresh
      obtain rfl : (name, pc) :: labels = labels' := by simpa using h
      have hnone : labels.lookup name = none := Option.not_isSome_iff_eq_none.mp hfresh
      refine ⟨fun l v hl => ?_, fun l hl => ?_, fun l hl hne => ?_⟩
      · have hne : (l == name) = false := by
          rw [beq_eq_false_iff_ne]
          rintro rfl
          rw [hnone] at hl
          cases hl
        simpa [List.lookup, hne] using hl
      · obtain rfl : name = l := by simpa using hl
        simp [List.lookup]
      · have hne' : (l == name) = false := by
          rw [beq_eq_false_iff_ne]
          rintro rfl
          exact hne rfl
        simpa [List.lookup, hne'] using hl

/-- A line in front: its label stands at `pc`, the other lines at `pc'`. -/
theorem Resolves.cons {s : Statement} {stmts : List Statement} {pc pc' : Nat}
    {labels labels₁ labels' : Labels}
    (hdef : (∀ l v, labels.lookup l = some v → labels₁.lookup l = some v) ∧
      (∀ l, s.label = some l → labels₁.lookup l = some pc) ∧
      (∀ l, labels.lookup l = none → s.label ≠ some l → labels₁.lookup l = none))
    (hpc : pc' = pc + 20 * (if s.text ≠ [] then 1 else 0))
    (h : Resolves stmts pc' labels₁ labels') : Resolves (s :: stmts) pc labels labels' where
  kept := fun l v hl => h.kept l v (hdef.1 l v hl)
  defined := by
    intro k t l ht hl
    cases k with
    | zero =>
      obtain rfl : s = t := by simpa using ht
      simpa using h.kept l pc (hdef.2.1 l hl)
    | succ k =>
      rw [h.defined k t l (by simpa using ht) hl, List.take_succ_cons, length_instructions_cons,
        hpc]
      congr 1
      omega
  absent := fun l hl hne => h.absent l
    (hdef.2.2 l hl (hne s List.mem_cons_self))
    (fun t ht => hne t (List.mem_cons_of_mem _ ht))

/-- The first pass keeps the instruction texts and resolves every label. -/
theorem collect_ok (py : Python) {lines : List (Nat × Str)} {labels' : Labels} {pc : Nat}
    {body : List (Nat × Str)} (h : collect py lines labels pc = .ok (labels', body)) :
    body.map Prod.snd = instructions (statements py lines) ∧
      Resolves (statements py lines) pc labels labels' := by
  induction lines generalizing labels pc body with
  | nil =>
    obtain ⟨rfl, rfl⟩ : labels = labels' ∧ ([] : List (Nat × Str)) = body := by
      simpa [collect] using h
    exact ⟨rfl, fun _ _ hl => hl, by simp [statements], fun _ hl _ => hl⟩
  | cons line lines ih =>
    obtain ⟨lineNo, line⟩ := line
    rw [collect, except_bind_eq_ok] at h
    obtain ⟨labels₁, hdef, h⟩ := h
    have hdef := define_ok hdef
    show body.map Prod.snd = instructions (statement py line :: statements py lines) ∧
      Resolves (statement py line :: statements py lines) pc labels labels'
    rw [instructions_cons]
    split at h
    -- an instruction: the counter moves on by its twenty bytes
    · rename_i htext
      rw [except_bind_eq_ok] at h
      obtain ⟨⟨labels₂, body'⟩, hrest, hret⟩ := h
      obtain ⟨rfl, rfl⟩ : labels₂ = labels' ∧ (lineNo, (statement py line).text) :: body' = body := by
        simpa [pure, Except.pure] using hret
      obtain ⟨hbody, hres⟩ := ih hrest
      refine ⟨by simp [htext, hbody], Resolves.cons hdef ?_ hres⟩
      simp [htext, INSN]
    -- a label alone on its line
    · rename_i htext
      obtain ⟨hbody, hres⟩ := ih h
      refine ⟨by simp only [htext, if_false, hbody], Resolves.cons hdef ?_ hres⟩
      simp [htext]

/-! ## The operands of one line -/

theorem reg_ok {text : Str} {n : Nat} (h : reg py text = .ok n) : IsRegister py text n := by
  simp only [reg] at h
  split at h
  · rename_i digits hdigits
    split at h
    · cases h
    · rename_i z hz
      split at h
      · rename_i hrange
        obtain rfl : z.toNat = n := by simpa using h
        refine ⟨by omega, digits, hdigits, ?_⟩
        rw [hz, Int.toNat_of_nonneg hrange.1]
      · cases h
  · cases h

theorem imm_ok {text : Str} {v : Nat} (hl : Resolves stmts 0 [] labels)
    (h : imm py labels text = .ok v) : IsImmediate py stmts text v := by
  simp only [imm] at h
  constructor
  · intro k s hk hs
    rw [hl.defined k s _ hk hs] at h
    simpa using h.symm
  · intro hnone
    simp only [hl.absent _ (by simp) hnone] at h
    unfold IsLiteral
    split at h
    · rename_i hq
      rw [if_pos hq]
      split at h
      · rename_i byte hbyte
        exact ⟨byte, hbyte, by simpa using h.symm⟩
      · cases h
      · cases h
    · rename_i hq
      rw [if_neg hq]
      split at h
      · rename_i z hz
        obtain rfl : (z % 2 ^ 128).toNat = v := by simpa using h
        exact ⟨z, hz, Int.toNat_of_nonneg (Int.emod_nonneg _ (by decide))⟩
      · cases h

/-- The fields as the emulator will see them. -/
@[simp] def Fields.insn (f : Fields) (op : Op) : Insn := ⟨op.code, f.rd, f.ra, f.rb, f.value⟩

/-- Each operand goes to the slot of its role, and nothing goes to the others. -/
theorem operandFields_ok {a : List Str} {f : Fields} (hl : Resolves stmts 0 [] labels)
    (h : operandFields py labels op a = .ok f) :
    List.Forall₂ (fun role text => Denotes py stmts role text ((f.insn op).field role)) op.roles a ∧
      ∀ role, role ∉ op.roles → (f.insn op).field role = 0 := by
  cases op with
  | nop =>
    simp only [operandFields] at h
    split at h
    · cases h
    · rename_i ha
      obtain rfl : a = [] := by simpa using ha
      obtain rfl : ({} : Fields) = f := by simpa using h
      exact ⟨.nil, fun role _ => by cases role <;> rfl⟩
  | movi =>
    simp only [operandFields] at h
    split at h
    · simp only [except_bind_eq_ok, pure, Except.pure, Except.ok.injEq] at h
      obtain ⟨rd, hrd, v, hv, rfl⟩ := h
      exact ⟨.cons (reg_ok hrd) (.cons (imm_ok hl hv) .nil), fun role => by cases role <;> simp⟩
    · cases h
  | mov =>
    simp only [operandFields] at h
    split at h
    · simp only [except_bind_eq_ok, pure, Except.pure, Except.ok.injEq] at h
      obtain ⟨rd, hrd, ra, hra, rfl⟩ := h
      exact ⟨.cons (reg_ok hrd) (.cons (reg_ok hra) .nil), fun role => by cases role <;> simp⟩
    · cases h
  | add | sub | and | or | xor =>
    simp only [operandFields] at h
    split at h
    · simp only [except_bind_eq_ok, pure, Except.pure, Except.ok.injEq] at h
      obtain ⟨rd, hrd, ra, hra, rb, hrb, rfl⟩ := h
      exact ⟨.cons (reg_ok hrd) (.cons (reg_ok hra) (.cons (reg_ok hrb) .nil)),
        fun role => by cases role <;> simp⟩
    · cases h
  | cmpeq =>
    simp only [operandFields] at h
    split at h
    · simp only [except_bind_eq_ok, pure, Except.pure, Except.ok.injEq] at h
      obtain ⟨ra, hra, rb, hrb, rfl⟩ := h
      exact ⟨.cons (reg_ok hra) (.cons (reg_ok hrb) .nil), fun role => by cases role <;> simp⟩
    · cases h
  | jmp | jz | jnz | halt =>
    simp only [operandFields] at h
    split at h
    · simp only [except_bind_eq_ok, pure, Except.pure, Except.ok.injEq] at h
      obtain ⟨v, hv, rfl⟩ := h
      exact ⟨.cons (imm_ok hl hv) .nil, fun role => by cases role <;> simp⟩
    · cases h
  | load8 =>
    simp only [operandFields] at h
    split at h
    · simp only [except_bind_eq_ok, pure, Except.pure, Except.ok.injEq] at h
      obtain ⟨rd, hrd, ra, hra, v, hv, rfl⟩ := h
      exact ⟨.cons (reg_ok hrd) (.cons (reg_ok hra) (.cons (imm_ok hl hv) .nil)),
        fun role => by cases role <;> simp⟩
    · cases h
  | store8 =>
    simp only [operandFields] at h
    split at h
    · simp only [except_bind_eq_ok, pure, Except.pure, Except.ok.injEq] at h
      obtain ⟨ra, hra, rb, hrb, v, hv, rfl⟩ := h
      exact ⟨.cons (reg_ok hra) (.cons (reg_ok hrb) (.cons (imm_ok hl hv) .nil)),
        fun role => by cases role <;> simp⟩
    · cases h
  | out =>
    simp only [operandFields] at h
    split at h
    · simp only [except_bind_eq_ok, pure, Except.pure, Except.ok.injEq] at h
      obtain ⟨v, hv, ra, hra, rfl⟩ := h
      exact ⟨.cons (imm_ok hl hv) (.cons (reg_ok hra) .nil), fun role => by cases role <;> simp⟩
    · cases h

/-! ## The second pass -/

/-- Twenty bytes, which `fetch` reads back wherever they stand. -/
theorem encode_ok {f : Fields} {bytes : List UInt8} (h : encode op f = .ok bytes) :
    f.value < 2 ^ 128 ∧ bytes.length = 20 ∧
      ∀ mem pc tail, mem.drop pc = bytes ++ tail → fetch mem pc = .ok (f.insn op) := by
  simp only [encode] at h
  split at h
  · rename_i hf
    obtain rfl := Except.ok.inj h
    refine ⟨hf.2.2.2, by simp, fun mem pc tail hmem => ?_⟩
    have hcode : op.code < 256 := by cases op <;> decide
    have hvalue : (mem.drop (pc + 4)).take 16 = leBytes 16 f.value := by
      rw [← List.drop_drop, hmem]
      simp
    simp only [fetch, hvalue]
    simp only [hmem, List.map_cons, List.map_nil, List.cons_append, List.nil_append,
      List.take_succ_cons, List.take_zero, leNat_leBytes]
    rw [Nat.mod_eq_of_lt (by norm_num at hf ⊢; exact hf.2.2.2)]
    simp only [UInt8.toNat_ofNat', Nat.reducePow, Nat.mod_eq_of_lt hcode,
      Nat.mod_eq_of_lt hf.1, Nat.mod_eq_of_lt hf.2.1, Nat.mod_eq_of_lt hf.2.2.1, Fields.insn]
  · cases h

/-- The registers of an instruction are below 16, whichever slots it uses. -/
theorem registers_lt {a : List Str} {insn : Insn}
    (hops : List.Forall₂ (fun role text => Denotes py stmts role text (insn.field role)) op.roles a)
    (hunused : ∀ role, role ∉ op.roles → insn.field role = 0) {role : Role} (hrole : role ≠ .imm) :
    insn.field role < 16 := by
  by_cases hmem : role ∈ op.roles
  · obtain ⟨i, hi, hrolei⟩ := List.getElem_of_mem hmem
    have hi' : i < a.length := hops.length_eq ▸ hi
    have hden := hops.get (i := i) hi hi'
    simp only [List.get_eq_getElem, hrolei] at hden
    cases role with
    | imm => exact absurd rfl hrole
    | rd | ra | rb => exact hden.1
  · rw [hunused role hmem]
    decide

theorem encodeLine_ok {line : Str} {bytes : List UInt8} (hl : Resolves stmts 0 [] labels)
    (h : encodeLine py labels line = .ok bytes) :
    bytes.length = 20 ∧ ∃ op insn, Encodes py stmts line op insn ∧
      ∀ mem pc tail, mem.drop pc = bytes ++ tail → fetch mem pc = .ok insn := by
  simp only [encodeLine] at h
  split at h
  · cases h
  · rename_i op hop
    rw [except_bind_eq_ok] at h
    obtain ⟨f, hf, h⟩ := h
    obtain ⟨hvalue, hlen, hfetch⟩ := encode_ok h
    obtain ⟨hops, hunused⟩ := operandFields_ok hl hf
    have hreg : ∀ role, role ≠ .imm → (f.insn op).field role < 16 := fun role hrole =>
      registers_lt hops hunused hrole
    exact ⟨hlen, op, f.insn op, ⟨hop, rfl, hops, hunused,
      ⟨hreg .rd (by decide), hreg .ra (by decide), hreg .rb (by decide)⟩, hvalue⟩, hfetch⟩

/-- The second pass writes the instructions one after the other. -/
theorem encodeBody_ok {body : List (Nat × Str)} {image : List UInt8}
    (hl : Resolves stmts 0 [] labels) (h : encodeBody py labels body = .ok image) :
    image.length = 20 * body.length ∧
      ∀ i line, (body.map Prod.snd)[i]? = some line → ∃ bytes tail,
        encodeLine py labels line = .ok bytes ∧ image.drop (20 * i) = bytes ++ tail := by
  induction body generalizing image with
  | nil =>
    obtain rfl : [] = image := by simpa [encodeBody] using h
    simp
  | cons entry body ih =>
    obtain ⟨lineNo, text⟩ := entry
    simp only [encodeBody, except_bind_eq_ok, atLine_eq_ok, pure, Except.pure, Except.ok.injEq] at h
    obtain ⟨bytes, hbytes, image', himage', rfl⟩ := h
    obtain ⟨hlen, -⟩ := encodeLine_ok hl hbytes
    obtain ⟨hlen', hrest⟩ := ih himage'
    refine ⟨by simp [hlen, hlen']; omega, fun i line hi => ?_⟩
    cases i with
    | zero =>
      obtain rfl : text = line := by simpa using hi
      exact ⟨bytes, image', hbytes, by simp⟩
    | succ i =>
      obtain ⟨bytes', tail, hline, hdrop⟩ := hrest i line (by simpa using hi)
      refine ⟨bytes', tail, hline, ?_⟩
      rw [show 20 * (i + 1) = bytes.length + 20 * i by omega,
        List.drop_length_add_append, hdrop]

/-- An accepted source with `n` instructions has an image of `20 * n` bytes, and the emulator
decodes the `i`-th of them at `20 * i`. -/
theorem assemble_encodes (py : Python) {source : Str} {image : List UInt8}
    (h : assemble py source = .ok image) :
    ∃ lines, expanded py source = .ok lines ∧
      image.length = 20 * (instructions (statements py lines)).length ∧
      ∀ i line, (instructions (statements py lines))[i]? = some line →
        ∃ op insn, fetch (loaded image) (20 * i) = .ok insn ∧
          Encodes py (statements py lines) line op insn := by
  simp only [assemble, except_bind_eq_ok] at h
  obtain ⟨lines, hlines, ⟨labels, body⟩, hcollect, hbody⟩ := h
  obtain ⟨htexts, hlabels⟩ := collect_ok py hcollect
  obtain ⟨hlen, hdrop⟩ := encodeBody_ok hlabels hbody
  simp only at hlen
  refine ⟨lines, hlines, ?_, fun i line hi => ?_⟩
  · rw [hlen, ← htexts, List.length_map]
  · rw [← htexts] at hi
    obtain ⟨bytes, tail, hline, hat⟩ := hdrop i line hi
    obtain ⟨-, op, insn, hencodes, hfetch⟩ := encodeLine_ok hlabels hline
    have hi' : i < body.length := by
      simpa using (List.getElem?_eq_some_iff.mp hi).1
    refine ⟨op, insn, hfetch _ _ (tail ++ List.replicate (RAM - image.length) 0) ?_, hencodes⟩
    rw [loaded, List.drop_append_of_le_length (by omega), hat, List.append_assoc]

/-- The built-ins on plain ASCII texts with decimal numbers and no string literals. -/
def asciiPython : Python where
  splitlines := fun source => source.splitOn (Char.ofNat 10)
  isspace := Char.isWhitespace
  lower := fun text => text.map Char.toLower
  int := fun text => decimal text
  intAuto := fun text => decimal text
  literalEval := fun _ => .invalid
where
  decimal : Str → Option Int
    | [] => none
    | digits => digits.foldl (fun n c => if c.isDigit then n.map (10 * · + (c.toNat - 48)) else none)
        (some 0)

/-- A label used before and after its definition. -/
def loopSource : Str :=
  "  jmp start # skip\n  nop\nstart: movi R3, 7\nhere:\n  jnz start\n  halt here".toList

theorem assemble_encodes_loop :
    ∃ image, assemble asciiPython loopSource = .ok image ∧
      ∃ lines, expanded asciiPython loopSource = .ok lines ∧
        image.length = 20 * (instructions (statements asciiPython lines)).length ∧
        ∀ i line, (instructions (statements asciiPython lines))[i]? = some line →
          ∃ op insn, fetch (loaded image) (20 * i) = .ok insn ∧
            Encodes asciiPython (statements asciiPython lines) line op insn := by
  have hok : (assemble asciiPython loopSource).isOk = true := by decide +kernel
  obtain ⟨image, himage⟩ : ∃ image, assemble asciiPython loopSource = .ok image := by
    cases h : assemble asciiPython loopSource with
    | ok image => exact ⟨image, rfl⟩
    | error e => simp [h, Except.isOk, Except.toBool] at hok
  exact ⟨image, himage, assemble_encodes asciiPython himage⟩

-- the forward jump of the first line, to the third instruction
example : ((assemble asciiPython loopSource).bind fun image => fetch (loaded image) 0).toOption =
    some ⟨9, 0, 0, 0, 40⟩ := by decide +kernel

end GenericKernel.X128
