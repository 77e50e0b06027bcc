import GenericKernel.Lib.Quoted
import GenericKernel.Tools.X128Logic

/-!
# What `puts` prints (`tools/x128.py`)

`puts` takes a Python string literal and is written out as two instructions for each
byte of its string. Before the literal is evaluated the source is cut into lines and
the rest of a line from `#` on is dropped, also inside a literal.

* **the built-ins** — `Python.Documented`: what the tool needs of `str` and `int`, and
  that a string literal without its closing quote is not one;
* **the text** — `expanded_of_clean`, `expanded_of_cut`: the literal reaches the
  evaluation as it is written, or without its end;
* **the image** — `assemble_puts`: two instructions for each byte and one for `halt`;
* **the run** — `runFor_puts`, by induction on the bytes still to be printed.
-/

namespace GenericKernel.X128

open GenericKernel.Lib

/-! ## The built-ins -/

def backslash : Char := Char.ofNat 92

/-- What may stand before the quote of a `str` literal. -/
def literalKinds : List Str := ["".toList, "r".toList, "R".toList, "u".toList, "U".toList]

/-- One or three of either quote. -/
def literalQuotes : List Str :=
  [[Char.ofNat 39], [Char.ofNat 34], List.replicate 3 (Char.ofNat 39),
    List.replicate 3 (Char.ofNat 34)]

/-- A string literal: the first closing quote that is not escaped is its end. -/
def StringLiteral (text : Str) : Prop :=
  ∃ kind ∈ literalKinds, ∃ quote ∈ literalQuotes, ∃ rest,
    text = kind ++ quote ++ rest ∧ afterQuote backslash quote false rest = some []

/-- The characters `str.splitlines` ends a line at. -/
def endsLine (c : Char) : Bool :=
  [10, 11, 12, 13, 0x1c, 0x1d, 0x1e, 0x85, 0x2028, 0x2029].contains c.toNat

def asciiSpace (c : Char) : Bool :=
  [9, 10, 11, 12, 13, 0x1c, 0x1d, 0x1e, 0x1f, 32].contains c.toNat

/-- The built-ins as documented, as far as `puts` needs them. -/
structure Python.Documented (py : Python) : Prop where
  isspace : ∀ c : Char, c.toNat < 128 → py.isspace c = asciiSpace c
  lower : ∀ text : Str, (∀ c ∈ text, c.isLower ∨ c.isDigit) → py.lower text = text
  int : ∀ n < 256, py.int (Nat.toDigits 10 n) = some (n : Int)
  intAuto : ∀ n < 256, py.intAuto (Nat.toDigits 10 n) = some (n : Int)
  firstLine : ∀ (first : Str) (c : Char) (rest : Str), (∀ x ∈ first, endsLine x = false) →
    endsLine c = true → (py.splitlines (first ++ c :: rest)).head? = some first
  twoLines : ∀ first second : Str, (∀ x ∈ first, endsLine x = false) →
    (∀ x ∈ second, endsLine x = false) → second ≠ [] →
    py.splitlines (first ++ Char.ofNat 10 :: second) = [first, second]
  unterminated : ∀ kind ∈ literalKinds, ∀ quote ∈ literalQuotes, ∀ text utf8,
    afterQuote backslash quote false text = none →
    py.literalEval (kind ++ quote ++ text) ≠ .text utf8

/-- Built-ins that know literals of printable characters between double quotes. -/
def plainPython : Python where
  splitlines := List.splitOnP endsLine
  isspace := asciiSpace
  lower := asciiPython.lower
  int := asciiPython.int
  intAuto := asciiPython.intAuto
  literalEval
    | [] => .invalid
    | c :: text =>
      if c = Char.ofNat 34 ∧ afterQuote backslash [Char.ofNat 34] false text = some []
          ∧ text.all fun c => 32 ≤ c.toNat ∧ c.toNat < 127 ∧ c ≠ backslash then
        .text (some (text.dropLast.map fun c => UInt8.ofNat c.toNat))
      else .invalid

variable {c : Char} {text rest : Str} {bytes tail : List UInt8}

theorem toLower_eq_self (h : c.isLower ∨ c.isDigit) : c.toLower = c := by
  apply dif_neg
  simp only [Char.isLower, Char.isDigit, Bool.and_eq_true, decide_eq_true_eq, ge_iff_le,
    UInt32.le_iff_toNat_le] at h ⊢
  simp at h ⊢
  omega

theorem afterQuote_of_literalEval {utf8 : Option (List UInt8)}
    (h : plainPython.literalEval text = .text utf8) : ∃ rest, text = Char.ofNat 34 :: rest ∧
      afterQuote backslash [Char.ofNat 34] false rest = some [] := by
  cases text with
  | nil => cases h
  | cons c rest =>
      unfold plainPython at h
      dsimp only at h
      split at h
      · rename_i hliteral
        exact ⟨rest, congrArg (· :: rest) hliteral.1, hliteral.2.1⟩
      · cases h

theorem plainPython_documented : plainPython.Documented where
  isspace _ _ := rfl
  lower text h := by
    have hmap : text.map Char.toLower = text.map id :=
      List.map_congr_left fun c hc => toLower_eq_self (h c hc)
    exact hmap.trans (List.map_id _)
  int n hn := by
    have hall : ∀ n : Fin 256, plainPython.int (Nat.toDigits 10 n) = some ((n : Nat) : Int) := by
      decide +kernel
    exact hall ⟨n, hn⟩
  intAuto n hn := by
    have hall : ∀ n : Fin 256, plainPython.intAuto (Nat.toDigits 10 n) = some ((n : Nat) : Int) := by
      decide +kernel
    exact hall ⟨n, hn⟩
  firstLine first c rest hfirst hc :=
    congrArg List.head? (List.splitOnP_append_cons_of_forall_mem hfirst c hc rest)
  twoLines first second hfirst hsecond _ := by
    show List.splitOnP endsLine _ = _
    rw [List.splitOnP_append_cons_of_forall_mem hfirst _ (by decide),
      List.splitOnP_eq_singleton hsecond]
  unterminated kind hkind quote hquote text utf8 hnone heval := by
    obtain ⟨rest, hrest, hend⟩ := afterQuote_of_literalEval heval
    have hcases : ∀ kind ∈ literalKinds, ∀ quote ∈ literalQuotes,
        kind ++ quote = [Char.ofNat 34] ∧ quote = [Char.ofNat 34]
          ∨ kind ++ quote = List.replicate 3 (Char.ofNat 34)
          ∨ (kind ++ quote).head? ≠ none ∧ (kind ++ quote).head? ≠ some (Char.ofNat 34) := by decide
    rcases hcases kind hkind quote hquote with ⟨hboth, rfl⟩ | hboth | ⟨hsome, hne⟩
    · rw [hboth] at hrest
      obtain rfl : text = rest := (List.cons.inj hrest).2
      rw [hnone] at hend
      cases hend
    -- three quotes are an empty literal and a stray quote
    · rw [hboth] at hrest
      obtain rfl : Char.ofNat 34 :: Char.ofNat 34 :: text = rest := (List.cons.inj hrest).2
      cases hend
    · obtain ⟨c, hc⟩ := Option.ne_none_iff_exists'.mp hsome
      have hhead := congrArg List.head? hrest
      rw [List.head?_append, hc] at hhead
      exact hne (hc.trans hhead)

/-! ## The text of the literal -/

/-- `puts` and `halt 0`, on a line each. -/
def putsSource (literal : Str) : Str :=
  "puts ".toList ++ literal ++ Char.ofNat 10 :: "halt 0".toList

/-- Neither a comment nor the next line begins here. -/
def clean (c : Char) : Bool := c ≠ '#' && !endsLine c

theorem clean_iff : clean c ↔ c ≠ '#' ∧ endsLine c = false := by simp [clean]

/-- An ASCII character that is not blank. -/
def solid (c : Char) : Bool := c.toNat < 128 && !asciiSpace c

def firm (text : Str) : Bool := text.head?.any solid && text.getLast?.any solid

theorem opening_firm : ∀ kind ∈ literalKinds, ∀ quote ∈ literalQuotes,
    firm (kind ++ quote) ∧ firm ("puts ".toList ++ (kind ++ quote))
      ∧ ("puts ".toList ++ (kind ++ quote)).all clean := by decide +kernel

theorem splitOnce_fst (c : Char) (text : Str) :
    (splitOnce c text).1 = text.takeWhile (fun x => decide (x ≠ c)) := by
  induction text with
  | nil => rfl
  | cons x text ih =>
      by_cases hx : x = c
      · simp [splitOnce, hx]
      · simp [splitOnce, hx, ih]

/-- A text in two, before the first character that satisfies `p`. -/
theorem exists_takeWhile_append {p : Char → Bool} (hmem : c ∈ text) (hc : p c) :
    ∃ d more, p d ∧ text = text.takeWhile (!p ·) ++ d :: more := by
  induction text with
  | nil => cases hmem
  | cons x text ih =>
      by_cases hx : p x
      · exact ⟨x, text, hx, by simp [hx]⟩
      · have hne : c ≠ x := by
          rintro rfl
          exact hx hc
        obtain ⟨d, more, hd, htext⟩ := ih ((List.mem_cons.mp hmem).resolve_left hne)
        refine ⟨d, more, hd, ?_⟩
        rw [List.takeWhile_cons_of_pos (by simpa using hx), List.cons_append, ← htext]

/-- What is left of the first line. -/
theorem splitOnce_takeWhile (text : Str) :
    (splitOnce '#' (text.takeWhile (!endsLine ·))).1 = text.takeWhile clean := by
  rw [splitOnce_fst, List.takeWhile_takeWhile]
  congr 1
  funext c
  simp [clean]

theorem takeWhile_putsSource {opening : Str} (hopening : ("puts ".toList ++ opening).all clean)
    (hrest : ¬ rest.all clean) : (putsSource (opening ++ rest)).takeWhile clean
      = "puts ".toList ++ opening ++ rest.takeWhile clean := by
  have hlength : (rest.takeWhile clean).length ≠ rest.length := by
    intro hlength
    have hself := (List.takeWhile_prefix clean).eq_of_length hlength
    exact hrest (List.all_eq_true.mpr (List.takeWhile_eq_self_iff.mp hself))
  show ("puts ".toList ++ (opening ++ rest) ++ Char.ofNat 10 :: _).takeWhile clean = _
  rw [← List.append_assoc, List.append_assoc,
    List.takeWhile_append_of_pos (List.all_eq_true.mp hopening), List.takeWhile_append,
    if_neg hlength]

namespace Python.Documented

variable {py : Python} (hpy : py.Documented)

include hpy

theorem isspace_of_solid (h : solid c) : py.isspace c = false := by
  simp only [solid, Bool.and_eq_true, decide_eq_true_eq, Bool.not_eq_true'] at h
  rw [hpy.isspace c h.1, h.2]

/-- Blanks are removed only behind a text that begins and ends with something else. -/
theorem strip_append (h : firm text) (more : Str) :
    py.strip (text ++ more) = text ++ more.rdropWhile py.isspace := by
  obtain ⟨hfirst, hlast⟩ := Bool.and_eq_true_iff.mp h
  cases text with
  | nil => cases hfirst
  | cons c text =>
      have hnot : ¬ py.isspace c := by simp [hpy.isspace_of_solid hfirst]
      unfold strip
      rw [List.cons_append, List.dropWhile_cons_of_neg hnot, ← List.cons_append]
      induction more using List.reverseRecOn with
      | nil =>
          rw [List.append_nil, List.rdropWhile_nil, List.append_nil, List.rdropWhile_eq_self_iff]
          intro hne
          rw [List.getLast?_eq_some_getLast hne] at hlast
          simp [hpy.isspace_of_solid hlast]
      | append_singleton more x ih =>
          rw [← List.append_assoc, List.rdropWhile_concat, List.rdropWhile_concat, ih]
          split
          · rfl
          · exact List.append_assoc ..

/-- The text a `puts` line hands to `ast.literal_eval`. -/
theorem strip_puts {kind quote : Str} (hkind : kind ∈ literalKinds) (hquote : quote ∈ literalQuotes)
    (part : Str) :
    py.strip ("puts ".toList ++ (kind ++ quote) ++ part)
      = "puts ".toList ++ (kind ++ quote ++ part.rdropWhile py.isspace)
    ∧ py.strip (kind ++ quote ++ part.rdropWhile py.isspace)
      = kind ++ quote ++ part.rdropWhile py.isspace := by
  obtain ⟨hliteral, hputs, -⟩ := opening_firm kind hkind quote hquote
  rw [hpy.strip_append hputs, hpy.strip_append hliteral, List.rdropWhile_idempotent]
  exact ⟨by simp only [List.append_assoc], rfl⟩

section Line

variable {kind quote part raw : Str} {lineNo : Nat} (hkind : kind ∈ literalKinds)
  (hquote : quote ∈ literalQuotes)
  (hraw : (splitOnce '#' raw).1 = "puts ".toList ++ (kind ++ quote) ++ part)

include hkind hquote hraw

theorem expandLine_eq : expandLine py lineNo raw =
    match py.literalEval (kind ++ quote ++ part.rdropWhile py.isspace) with
    | .text (some bytes) => .ok (bytes.flatMap (putsByte lineNo))
    | .text none => .error .exception
    | .other => .error (.errorAt lineNo .putsExpectsString)
    | .invalid => .error (.errorAt lineNo .invalidPuts)
    | .raised => .error .exception := by
  obtain ⟨hline, hliteral⟩ := hpy.strip_puts hkind hquote part
  have hputs (text : Str) : "puts ".toList.isPrefixOf ("puts ".toList ++ text) := by simp
  rw [expandLine, hraw, hline, if_neg (by simp), if_pos (hputs _)]
  rewrite [show ("puts ".toList ++ (kind ++ quote ++ part.rdropWhile py.isspace)).drop 5
    = kind ++ quote ++ part.rdropWhile py.isspace from rfl, hliteral]
  rfl

end Line

theorem splitlines_of_mem (hmem : c ∈ text) (hc : endsLine c) :
    ∃ lines, py.splitlines text = text.takeWhile (!endsLine ·) :: lines := by
  obtain ⟨d, more, hd, htext⟩ := exists_takeWhile_append hmem hc
  have hhead := hpy.firstLine (text.takeWhile (!endsLine ·)) d more
    (fun x hx => by simpa using List.mem_takeWhile_imp hx) hd
  rw [← htext] at hhead
  exact List.head?_eq_some_iff.mp hhead

theorem strip_self (h : firm text) : py.strip text = text := by
  have hstrip := hpy.strip_append h []
  rwa [List.append_nil, List.rdropWhile_nil, List.append_nil] at hstrip

theorem expandLine_halt (lineNo : Nat) :
    expandLine py lineNo "halt 0".toList = .ok [(lineNo, "halt 0".toList)] := by
  have hcut : (splitOnce '#' "halt 0".toList).1 = "halt 0".toList := by decide
  rw [expandLine, hcut, hpy.strip_self (by decide)]
  rfl

/-- The closing quote is the last character. -/
theorem rdropWhile_rest {quote : Str} (hquote : quote ∈ literalQuotes)
    (hend : afterQuote backslash quote false rest = some []) :
    rest.rdropWhile py.isspace = rest := by
  obtain ⟨body, rfl⟩ := exists_of_afterQuote hend
  have hlast : ∀ quote ∈ literalQuotes, quote ≠ [] ∧ quote.getLast?.any solid := by decide
  obtain ⟨hne, hsolid⟩ := hlast quote hquote
  rw [List.append_nil, List.rdropWhile_eq_self_iff]
  intro _
  rw [List.getLast?_eq_some_getLast hne] at hsolid
  rw [List.getLast_append_of_ne_nil _ hne, hpy.isspace_of_solid hsolid]
  decide

/-- A literal without either character is evaluated as it is written. -/
theorem expanded_of_clean {literal : Str} (hliteral : StringLiteral literal)
    (hdenotes : py.literalEval literal = .text (some bytes)) (hclean : literal.all clean) :
    expanded py (putsSource literal)
      = .ok (bytes.flatMap (putsByte 1) ++ [(2, "halt 0".toList)]) := by
  have hall : ("puts ".toList ++ literal).all clean := by
    rw [List.all_append, hclean]
    decide
  have hhalt : "halt 0".toList.all clean := by decide
  have hlines : py.splitlines (putsSource literal) = ["puts ".toList ++ literal, "halt 0".toList] :=
    hpy.twoLines _ _ (fun c hc => (clean_iff.mp (List.all_eq_true.mp hall c hc)).2)
      (fun c hc => (clean_iff.mp (List.all_eq_true.mp hhalt c hc)).2) (by decide)
  have hcut : (splitOnce '#' ("puts ".toList ++ literal)).1 = "puts ".toList ++ literal := by
    rw [splitOnce_fst, List.takeWhile_eq_self_iff]
    intro c hc
    simpa using (clean_iff.mp (List.all_eq_true.mp hall c hc)).1
  obtain ⟨kind, hkind, quote, hquote, rest, rfl, hend⟩ := hliteral
  have hraw : (splitOnce '#' ("puts ".toList ++ (kind ++ quote ++ rest))).1
      = "puts ".toList ++ (kind ++ quote) ++ rest := hcut.trans (List.append_assoc ..).symm
  have hline : expandLine py 1 _ = _ := hpy.expandLine_eq hkind hquote hraw
  rw [hpy.rdropWhile_rest hquote hend, hdenotes] at hline
  rw [expanded, hlines, expandFrom, hline, expandFrom, hpy.expandLine_halt]
  rfl

/-- In any other the line ends inside the literal, which then has no closing quote. -/
theorem expanded_of_cut {literal : Str} (hliteral : StringLiteral literal)
    (hcut : ¬ literal.all clean) : ∃ e, expanded py (putsSource literal) = .error e := by
  obtain ⟨kind, hkind, quote, hquote, rest, rfl, hend⟩ := hliteral
  obtain ⟨-, -, hopening⟩ := opening_firm kind hkind quote hquote
  have hrest : ¬ rest.all clean := by
    simp only [List.all_append, Bool.and_eq_true, not_and] at hcut hopening
    exact hcut ⟨hopening.2.1, hopening.2.2⟩
  have hnewline : Char.ofNat 10 ∈ putsSource (kind ++ quote ++ rest) :=
    List.mem_append_right _ List.mem_cons_self
  obtain ⟨lines, hlines⟩ := hpy.splitlines_of_mem hnewline (by decide)
  have hraw := (splitOnce_takeWhile _).trans (takeWhile_putsSource hopening hrest)
  have hnone : afterQuote backslash quote false ((rest.takeWhile clean).rdropWhile py.isspace)
      = none := by
    apply afterQuote_eq_none hend ((List.rdropWhile_prefix ..).trans (List.takeWhile_prefix _))
    intro hself
    have hlength := (List.rdropWhile_prefix py.isspace (rest.takeWhile clean)).length_le
    rw [hself] at hlength
    have htake := (List.takeWhile_prefix clean).eq_of_length_le hlength
    exact hrest (List.all_eq_true.mpr (List.takeWhile_eq_self_iff.mp htake))
  have heval utf8 := hpy.unterminated kind hkind quote hquote _ utf8 hnone
  have hline : expandLine py 1 _ = _ := hpy.expandLine_eq hkind hquote hraw
  rw [expanded, hlines, expandFrom, hline]
  cases hresult : py.literalEval (kind ++ quote ++ (rest.takeWhile clean).rdropWhile py.isspace) with
  | text utf8 => exact absurd hresult (heval utf8)
  | other | invalid | raised => exact ⟨_, rfl⟩

end Python.Documented

/-! ## The image -/

/-- The twenty bytes of an instruction. -/
def insnBytes (op : Op) (f : Fields) : List UInt8 :=
  [op.code, f.rd, f.ra, f.rb].map UInt8.ofNat ++ leBytes 16 f.value

structure Fields.InRange (f : Fields) : Prop where
  rd : f.rd < 16
  ra : f.ra < 16
  rb : f.rb < 16
  value : f.value < 2 ^ 128

theorem encode_eq {op : Op} {f : Fields} (h : f.InRange) : encode op f = .ok (insnBytes op f) := by
  obtain ⟨hrd, hra, hrb, hvalue⟩ := h
  exact if_pos ⟨by omega, by omega, by omega, hvalue⟩

/-- `movi r1, byte` -/
def moviFields (byte : UInt8) : Fields := { rd := 1, value := byte.toNat }

/-- `out 0, r1` -/
def outFields : Fields := { ra := 1 }

theorem moviFields_inRange (byte : UInt8) : (moviFields byte).InRange :=
  ⟨Nat.one_lt_succ_succ 14, Nat.succ_pos 15, Nat.succ_pos 15, byte.toNat_lt.trans (by decide)⟩

theorem outFields_inRange : outFields.InRange := ⟨by decide, by decide, by decide, by decide⟩

theorem haltFields_inRange : ({} : Fields).InRange := ⟨by decide, by decide, by decide, by decide⟩

def byteInsns (byte : UInt8) : List UInt8 :=
  insnBytes .movi (moviFields byte) ++ insnBytes .out outFields

def putsImage (bytes : List UInt8) : List UInt8 := bytes.flatMap byteInsns ++ insnBytes .halt {}

theorem putsImage_cons (byte : UInt8) (bytes : List UInt8) :
    putsImage (byte :: bytes) = byteInsns byte ++ putsImage bytes := List.append_assoc ..

/-- The decimal digits of a byte, as a text and as the second operand of `movi`. -/
theorem digits_byte : ∀ n : Fin 256, firm (Nat.toDigits 10 n) ∧ ¬ quoted (Nat.toDigits 10 n)
    ∧ ("r1, ".toList ++ Nat.toDigits 10 n).splitOn ',' = ["r1".toList, ' ' :: Nat.toDigits 10 n]
    ∧ ("movi r1, ".toList ++ Nat.toDigits 10 n).all (· ≠ ':') := by decide +kernel

theorem splitOnce_of_not_mem (h : c ∉ text) : splitOnce c text = (text, none) := by
  induction text with
  | nil => rfl
  | cons x text ih =>
      obtain ⟨hx, htext⟩ := not_or.mp (mt List.mem_cons.mpr h)
      rw [splitOnce, if_neg (Ne.symm hx), ih htext]

/-- Lines without a colon define no label. -/
theorem collect_of_no_label {py : Python} {lines : List (Nat × Str)} {labels : Labels} {pc : Nat}
    (h : ∀ line ∈ lines, line.2 ≠ [] ∧ ':' ∉ line.2) :
    collect py lines labels pc = .ok (labels, lines) := by
  induction lines generalizing pc with
  | nil => rfl
  | cons line lines ih =>
      obtain ⟨lineNo, text⟩ := line
      obtain ⟨hne, hcolon⟩ := h _ List.mem_cons_self
      have hstatement : statement py text = ⟨none, text⟩ := by
        rw [statement, splitOnce_of_not_mem hcolon]
      rw [collect, hstatement]
      show (if text ≠ [] then collect py lines labels (pc + INSN) >>= _ else _) = _
      rw [if_pos hne, ih fun line hline => h line (List.mem_cons_of_mem _ hline)]
      rfl

theorem putsByte_no_label {lineNo : Nat} {byte : UInt8} {line : Nat × Str}
    (h : line ∈ putsByte lineNo byte) : line.2 ≠ [] ∧ ':' ∉ line.2 := by
  obtain ⟨-, -, -, hcolon⟩ := digits_byte ⟨byte.toNat, byte.toNat_lt⟩
  rcases List.mem_cons.mp h with rfl | h
  · refine ⟨by simp, fun hmem => ?_⟩
    simpa using List.all_eq_true.mp hcolon _ hmem
  · obtain rfl := List.mem_singleton.mp h
    exact ⟨by simp, (by decide : ':' ∉ "out 0, r1".toList)⟩

namespace Python.Documented

variable {py : Python} (hpy : py.Documented)

include hpy

theorem strip_blank (text : Str) : py.strip (' ' :: text) = py.strip text := by
  have hblank : py.isspace ' ' := hpy.isspace ' ' (by decide)
  rw [strip, List.dropWhile_cons_of_pos hblank, strip]

theorem words_eq {word : Str} (hword : (c :: word).all solid) (hrest : rest.head?.any solid) :
    py.words (c :: word ++ ' ' :: rest) = (c :: word, rest) := by
  have hblank : py.isspace ' ' := hpy.isspace ' ' (by decide)
  have hsolid : ∀ d ∈ c :: word, (!py.isspace d) = true := fun d hd => by
    rw [hpy.isspace_of_solid (List.all_eq_true.mp hword d hd)]
    rfl
  have hfirst : ¬ py.isspace c := by simpa using hsolid c List.mem_cons_self
  have hdrop : rest.dropWhile py.isspace = rest := by
    cases rest with
    | nil => rfl
    | cons d rest => exact List.dropWhile_cons_of_neg (by simp [hpy.isspace_of_solid hrest])
  unfold words
  rw [List.cons_append, List.dropWhile_cons_of_neg hfirst, ← List.cons_append]
  dsimp only
  rw [List.takeWhile_append_of_pos hsolid, List.dropWhile_append_of_pos hsolid,
    List.takeWhile_cons_of_neg (by simp [hblank]), List.dropWhile_cons_of_neg (by simp [hblank]),
    List.dropWhile_cons_of_pos hblank, hdrop, List.append_nil]

theorem lower_self (h : text.all fun c => c.isLower || c.isDigit) : py.lower text = text :=
  hpy.lower text fun c hc => by simpa using List.all_eq_true.mp h c hc

/-- A line of a mnemonic and operands that do not refer to labels. -/
theorem encodeLine_eq {c : Char} {word rest : Str} {op : Op} {texts : List Str} {f : Fields}
    (hword : (c :: word).all solid) (hlower : (c :: word).all fun c => c.isLower || c.isDigit)
    (hrest : rest.head?.any solid) (hop : OPS.lookup (c :: word) = some op)
    (hoperands : (rest.splitOn ',').map py.strip = texts)
    (hfields : operandFields py [] op texts = .ok f) (hrange : f.InRange) :
    encodeLine py [] (c :: word ++ ' ' :: rest) = .ok (insnBytes op f) := by
  have hne : rest ≠ [] := by
    rintro rfl
    cases hrest
  rw [encodeLine, operands, hpy.words_eq hword hrest, hpy.lower_self hlower, hop]
  dsimp only
  rw [if_neg hne, hoperands, hfields]
  exact encode_eq hrange

theorem reg_one : reg py "r1".toList = .ok 1 := by
  have hone : py.int ['1'] = some 1 := hpy.int 1 (by decide)
  have htext : "r1".toList = ['r', '1'] := by decide
  rw [reg, hpy.strip_self (by decide), hpy.lower_self (by decide), htext]
  simp only [hone]
  rfl

theorem imm_byte (byte : UInt8) : imm py [] (Nat.toDigits 10 byte.toNat) = .ok byte.toNat := by
  obtain ⟨hfirm, hquoted, -⟩ := digits_byte ⟨byte.toNat, byte.toNat_lt⟩
  have hlt := byte.toNat_lt
  rw [imm, hpy.strip_self hfirm, List.lookup_nil]
  dsimp only
  rw [if_neg hquoted, hpy.intAuto _ byte.toNat_lt]
  show Except.ok ((byte.toNat : Int) % 2 ^ 128).toNat = _
  congr 1
  omega

theorem encodeLine_movi (byte : UInt8) :
    encodeLine py [] ("movi r1, ".toList ++ Nat.toDigits 10 byte.toNat)
      = .ok (insnBytes .movi (moviFields byte)) := by
  obtain ⟨hfirm, -, hsplit, -⟩ := digits_byte ⟨byte.toNat, byte.toNat_lt⟩
  refine @encodeLine_eq _ hpy 'm' "ovi".toList ("r1, ".toList ++ Nat.toDigits 10 byte.toNat) .movi
    ["r1".toList, Nat.toDigits 10 byte.toNat] _ (by decide) (by decide) rfl rfl ?_ ?_
    (moviFields_inRange byte)
  · rw [hsplit, List.map_cons, List.map_cons, List.map_nil, hpy.strip_blank,
      hpy.strip_self hfirm, hpy.strip_self (by decide)]
  · rw [operandFields, hpy.reg_one, hpy.imm_byte]
    rfl

theorem encodeLine_out : encodeLine py [] "out 0, r1".toList = .ok (insnBytes .out outFields) := by
  refine @encodeLine_eq _ hpy 'o' "ut".toList "0, r1".toList .out
    ["0".toList, "r1".toList] _ (by decide) (by decide) rfl rfl ?_ ?_ outFields_inRange
  · rw [show "0, r1".toList.splitOn ',' = ["0".toList, ' ' :: "r1".toList] by decide, List.map_cons,
      List.map_cons, List.map_nil, hpy.strip_blank, hpy.strip_self (by decide),
      hpy.strip_self (by decide)]
  · rw [operandFields, hpy.reg_one, show "0".toList = Nat.toDigits 10 (0 : UInt8).toNat by decide,
      hpy.imm_byte]
    rfl

theorem encodeLine_halt : encodeLine py [] "halt 0".toList = .ok (insnBytes .halt {}) := by
  refine @encodeLine_eq _ hpy 'h' "alt".toList "0".toList .halt
    ["0".toList] _ (by decide) (by decide) rfl rfl ?_ ?_ haltFields_inRange
  · rw [show "0".toList.splitOn ',' = ["0".toList] by decide, List.map_cons, List.map_nil,
      hpy.strip_self (by decide)]
  · rw [operandFields, show "0".toList = Nat.toDigits 10 (0 : UInt8).toNat by decide, hpy.imm_byte]
    rfl

/-- The second pass of the written-out lines. -/
theorem encodeBody_puts (lineNo : Nat) (bytes : List UInt8) :
    encodeBody py [] (bytes.flatMap (putsByte lineNo) ++ [(2, "halt 0".toList)])
      = .ok (putsImage bytes) := by
  induction bytes with
  | nil =>
      show encodeBody py [] [(2, "halt 0".toList)] = _
      rw [encodeBody, hpy.encodeLine_halt]
      rfl
  | cons byte bytes ih =>
      show encodeBody py [] ((lineNo, "movi r1, ".toList ++ Nat.toDigits 10 byte.toNat)
        :: (lineNo, "out 0, r1".toList) :: (bytes.flatMap (putsByte lineNo) ++ _)) = _
      rw [encodeBody, hpy.encodeLine_movi, encodeBody, hpy.encodeLine_out, ih]
      show Except.ok (_ ++ (_ ++ putsImage bytes)) = _
      rw [putsImage_cons, byteInsns, List.append_assoc]

theorem assemble_puts {source : Str}
    (h : expanded py source = .ok (bytes.flatMap (putsByte 1) ++ [(2, "halt 0".toList)])) :
    assemble py source = .ok (putsImage bytes) := by
  have hlines : ∀ line ∈ bytes.flatMap (putsByte 1) ++ [(2, "halt 0".toList)],
      line.2 ≠ [] ∧ ':' ∉ line.2 := by
    intro line hline
    rcases List.mem_append.mp hline with hputs | hhalt
    · obtain ⟨byte, -, hline⟩ := List.mem_flatMap.mp hputs
      exact putsByte_no_label hline
    · obtain rfl := List.mem_singleton.mp hhalt
      decide
  rw [assemble, h]
  show (collect py _ [] 0 >>= _) = _
  rw [collect_of_no_label hlines]
  exact hpy.encodeBody_puts 1 bytes

end Python.Documented

/-! ## The run -/

theorem length_insnBytes (op : Op) (f : Fields) : (insnBytes op f).length = 20 := by
  simp [insnBytes]

theorem length_byteInsns (byte : UInt8) : (byteInsns byte).length = 40 := by
  rw [byteInsns, List.length_append, length_insnBytes, length_insnBytes]

theorem length_putsImage (bytes : List UInt8) :
    (putsImage bytes).length = 20 * (2 * bytes.length + 1) := by
  induction bytes with
  | nil => exact length_insnBytes ..
  | cons byte bytes ih =>
      rw [putsImage_cons, List.length_append, ih, length_byteInsns, List.length_cons]
      omega

/-- A step where an instruction stands. -/
theorem step_eq {cpu : Cpu} {op : Op} {f : Fields} (hf : f.InRange) (hpc : cpu.pc + 20 ≤ RAM)
    (hmem : cpu.mem.drop cpu.pc = insnBytes op f ++ tail) :
    step cpu = execute { cpu with pc := cpu.pc + 20 } op (f.insn op) := by
  have hfetch := (encode_ok (encode_eq hf)).2.2 cpu.mem cpu.pc tail hmem
  have hop : Op.ofCode? (f.insn op).op = some op := by cases op <;> rfl
  have hinsn : INSN = 20 := rfl
  have hram : RAM = 65536 := rfl
  obtain ⟨hrd, hra, hrb, -⟩ := hf
  rw [step, if_neg (by omega), hfetch]
  dsimp only [bind, Except.bind]
  rw [hop]
  show (if 16 ≤ max f.rd (max f.ra f.rb) then _ else _) = _
  rw [if_neg (by omega), Nat.mod_eq_of_lt (by omega), hinsn]

/-- The two instructions of a byte print it. -/
theorem runFor_byte {byte : UInt8} {cpu : Cpu} (steps : Nat) (hr : cpu.r.length = 16)
    (hpc : cpu.pc + 40 ≤ RAM) (hmem : cpu.mem.drop cpu.pc = byteInsns byte ++ tail) :
    runFor (steps + 2) cpu = runFor steps { cpu with
      r := cpu.r.set 1 byte.toNat, pc := cpu.pc + 40, output := cpu.output ++ [byte] } := by
  rw [byteInsns, List.append_assoc] at hmem
  have hout : cpu.mem.drop (cpu.pc + 20) = insnBytes .out outFields ++ tail := by
    rw [← List.drop_drop, hmem, ← length_insnBytes .movi (moviFields byte), List.drop_left]
  have hmovi : step cpu = .ok (.next { cpu with r := cpu.r.set 1 byte.toNat, pc := cpu.pc + 20 }) := by
    rw [step_eq (moviFields_inRange byte) (by omega) hmem]
    show (Cpu.setReg _ 1 byte.toNat >>= _) = _
    rw [Cpu.setReg, if_pos (by rw [hr]; decide)]
    rfl
  have hindex : (cpu.r.set 1 byte.toNat)[1]? = some byte.toNat :=
    List.getElem?_set_self (by rw [hr]; decide)
  rw [runFor, hmovi]
  show runFor (steps + 1) _ = _
  rw [runFor, step_eq outFields_inRange hpc hout]
  show ((index (cpu.r.set 1 byte.toNat) 1 >>= _) >>= _) = _
  rw [index, hindex]
  show runFor steps { cpu with
      r := cpu.r.set 1 byte.toNat, pc := cpu.pc + 20 + 20,
      output := cpu.output ++ [UInt8.ofNat byte.toNat] } = _
  rw [UInt8.ofNat_toNat]

/-- The emulator prints what is left of the string and halts. -/
theorem runFor_puts : ∀ {steps : Nat} {cpu : Cpu},
    2 * bytes.length < steps → cpu.r.length = 16 →
    cpu.pc + 20 * (2 * bytes.length + 1) ≤ RAM → cpu.mem.drop cpu.pc = putsImage bytes ++ tail →
    runFor steps cpu = .ok (0, cpu.output ++ bytes) := by
  induction bytes with
  | nil =>
      intro steps cpu hsteps hr hpc hmem
      obtain ⟨steps, rfl⟩ := Nat.exists_eq_add_of_lt hsteps
      rw [runFor, step_eq haltFields_inRange hpc hmem]
      show Except.ok (0, cpu.output) = _
      rw [List.append_nil]
  | cons byte bytes ih =>
      intro steps cpu hsteps hr hpc hmem
      rw [List.length_cons] at hsteps hpc
      obtain ⟨steps, rfl⟩ : ∃ n, steps = n + 2 := ⟨steps - 2, by omega⟩
      have hbyte : cpu.mem.drop cpu.pc = byteInsns byte ++ (putsImage bytes ++ tail) := by
        rw [hmem, putsImage_cons, List.append_assoc]
      have hrest : cpu.mem.drop (cpu.pc + 40) = putsImage bytes ++ tail := by
        rw [← List.drop_drop, hbyte, ← length_byteInsns byte, List.drop_left]
      have hpc' : cpu.pc + 40 + 20 * (2 * bytes.length + 1) ≤ RAM := by omega
      rw [runFor_byte steps hr (by omega) hbyte,
        ih (by omega) ((List.length_set ..).trans hr) hpc' hrest,
        List.append_assoc, List.singleton_append]

theorem run_puts (h : 20 * (2 * bytes.length + 1) ≤ RAM) :
    run (putsImage bytes) = .ok (0, bytes) := by
  have hlength := length_putsImage bytes
  rw [run, if_neg (by omega)]
  refine runFor_puts ?_ List.length_replicate ?_ rfl
  · have hram : RAM = 65536 := rfl
    omega
  · rw [Nat.zero_add]
    exact h

/-- `puts` of a literal prints its string exactly when the literal has neither a `#` nor a
character that ends a line for `str.splitlines`. -/
theorem puts_prints_iff (py : Python) (hpy : py.Documented) (literal : Str) (bytes : List UInt8)
    (hliteral : StringLiteral literal) (hdenotes : py.literalEval literal = .text (some bytes))
    (hfits : 20 * (2 * bytes.length + 1) ≤ 65536) :
    (∃ image, assemble py (putsSource literal) = .ok image ∧ run image = .ok (0, bytes))
      ↔ ∀ c ∈ literal, c ≠ '#' ∧ endsLine c = false := by
  have hclean : (∀ c ∈ literal, c ≠ '#' ∧ endsLine c = false) ↔ literal.all clean := by
    simp only [List.all_eq_true, clean_iff]
  rw [hclean]
  constructor
  · rintro ⟨image, himage, -⟩
    by_contra hcut
    obtain ⟨e, he⟩ := hpy.expanded_of_cut hliteral hcut
    rw [assemble, he] at himage
    cases himage
  · intro hall
    exact ⟨_, hpy.assemble_puts (hpy.expanded_of_clean hliteral hdenotes hall), run_puts hfits⟩

/-- The literal of a text between double quotes. -/
def doubleQuoted (text : String) : Str := Char.ofNat 34 :: text.toList ++ [Char.ofNat 34]

theorem puts_prints_iff_greeting : ∃ image,
    assemble plainPython (putsSource (doubleQuoted "Hi: x, y")) = .ok image
      ∧ run image = .ok (0, [72, 105, 58, 32, 120, 44, 32, 121]) := by
  refine (puts_prints_iff plainPython plainPython_documented _ _ ?_ ?_ ?_).mpr ?_
  · exact ⟨[], by decide, [Char.ofNat 34], by decide, _, rfl, by decide⟩
  · rfl
  · decide
  · have hclean : (doubleQuoted "Hi: x, y").all clean := by decide
    exact fun c hc => clean_iff.mp (List.all_eq_true.mp hclean c hc)

/-- A number sign in a string: the literal is cut to its opening quote and an `a`. -/
theorem puts_number_sign : plainPython.Documented ∧ StringLiteral (doubleQuoted "a#b")
    ∧ plainPython.literalEval (doubleQuoted "a#b") = .text (some [97, 35, 98])
    ∧ assemble plainPython (putsSource (doubleQuoted "a#b")) = .error (.errorAt 1 .invalidPuts) := by
  refine ⟨plainPython_documented, ?_, ?_, ?_⟩
  · exact ⟨[], by decide, [Char.ofNat 34], by decide, _, rfl, by decide⟩
  · rfl
  · rfl

end GenericKernel.X128
