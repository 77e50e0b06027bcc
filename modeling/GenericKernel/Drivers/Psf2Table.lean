import GenericKernel.Drivers.Psf2

/-!
# The Unicode table of a PSF2 font

Behind the glyphs a font may list, for each glyph, the characters that stand for
it alone and then, each behind a byte `0xFE`, sequences of characters that stand
for it together; a byte `0xFF` ends the list.

* `GlyphEntry`, `tableBytes` — the table as the format defines it;
* `scan_tokens`, `unicodeGlyphIndex_eq_mention` — what the scanner of the source
  finds: the first glyph that mentions the character anywhere, since it skips the
  byte `0xFE` and takes the characters of a sequence for single ones;
* `interprets_iff` — when that is the glyph the format asks for.
-/

namespace GenericKernel.Psf

open GenericKernel.Lib
open Fallible

/-! ## The format -/

/-- One unit of the table. -/
inductive Token
  | char (c : Char)
  | sequence
  | terminator

def Token.bytes : Token → List UInt8
  | .char c => String.utf8EncodeChar c
  | .sequence => [0xfe]
  | .terminator => [0xff]

/-- What the table says about one glyph. -/
structure GlyphEntry where
  alone : List Char
  sequences : List (List Char)
  multiple : ∀ sequence ∈ sequences, 1 < sequence.length

namespace GlyphEntry

def tokens (entry : GlyphEntry) : List Token :=
  entry.alone.map .char ++
    (entry.sequences.flatMap fun sequence => .sequence :: sequence.map .char) ++ [.terminator]

/-- The character occurs in the entry, alone or in a sequence. -/
def Mentions (c : Char) (entry : GlyphEntry) : Prop :=
  c ∈ entry.alone ∨ ∃ sequence ∈ entry.sequences, c ∈ sequence

instance (c : Char) (entry : GlyphEntry) : Decidable (entry.Mentions c) :=
  inferInstanceAs (Decidable (_ ∨ _))

end GlyphEntry

def tableBytes (entries : List GlyphEntry) : List UInt8 :=
  (entries.flatMap GlyphEntry.tokens).flatMap Token.bytes

/-- The font's table consists of one entry for each glyph. -/
structure Psf2Font.HasTable (font : Psf2Font) (entries : List GlyphEntry) : Prop where
  flag : font.flags &&& PSF2_HAS_UNICODE_TABLE ≠ 0
  length : entries.length = font.glyphCount
  bytes : font.table.items = tableBytes entries

/-- The table is read as the format defines it: a character that stands alone for
some glyph has the first such glyph, and any other character is not listed. -/
structure Psf2Font.Interprets (font : Psf2Font) (entries : List GlyphEntry) (c : Char) : Prop where
  listed : ∀ g, entries.findIdx? (c ∈ GlyphEntry.alone ·) = some g → font.glyphIndex c = ok g
  unlisted : (∀ entry ∈ entries, c ∉ entry.alone) → font.unicodeGlyphIndex c = error ()

/-! ## Characters and their bytes -/

theorem utf8SequenceLen_ofNat {n : Nat} (h : n < 256) : utf8SequenceLen (UInt8.ofNat n) =
    if n ≤ 0x7f then some 1
    else if 0xc2 ≤ n ∧ n ≤ 0xdf then some 2
    else if 0xe0 ≤ n ∧ n ≤ 0xef then some 3
    else if 0xf0 ≤ n ∧ n ≤ 0xf4 then some 4
    else none := by
  unfold utf8SequenceLen
  simp only [UInt8.le_iff_toNat_le, UInt8.toNat_ofNat_of_lt' h]
  rfl

/-- No marker starts a character. -/
theorem ne_marker_of_utf8SequenceLen {first : UInt8} {width : Nat}
    (h : utf8SequenceLen first = some width) : first ≠ 0xff ∧ first ≠ 0xfe := by
  constructor
  · rintro rfl
    exact nomatch h
  · rintro rfl
    exact nomatch h

/-- The first byte of a character tells the number of its bytes. -/
theorem utf8EncodeChar_first (c : Char) : ∃ first rest, String.utf8EncodeChar c = first :: rest ∧
    utf8SequenceLen first = some (String.utf8EncodeChar c).length := by
  have hvalid : c.val.toNat < 0x110000 := by
    rcases c.valid with h | h
    · have : c.val.toNat < 0xd800 := h
      omega
    · exact h.2
  unfold String.utf8EncodeChar
  simp only
  generalize c.val.toNat = v at hvalid ⊢
  split_ifs with h1 h2 h3
  · refine ⟨_, _, rfl, ?_⟩
    rw [utf8SequenceLen_ofNat (by omega), if_pos (by omega)]
    rfl
  · refine ⟨_, _, rfl, ?_⟩
    rw [utf8SequenceLen_ofNat (by omega), if_neg (by omega), if_pos (by omega)]
    rfl
  · refine ⟨_, _, rfl, ?_⟩
    rw [utf8SequenceLen_ofNat (by omega), if_neg (by omega), if_neg (by omega), if_pos (by omega)]
    rfl
  · refine ⟨_, _, rfl, ?_⟩
    rw [utf8SequenceLen_ofNat (by omega), if_neg (by omega), if_neg (by omega), if_neg (by omega),
      if_pos (by omega)]
    rfl

/-- The decoder returns the character whose bytes it is given. -/
theorem firstChar_utf8EncodeChar {bytes : Slice UInt8} {c : Char}
    (h : bytes.items = String.utf8EncodeChar c) : firstChar bytes = some c := by
  have hbytes : (⟨bytes.items.toArray⟩ : ByteArray) = (String.singleton c).toByteArray := by
    rw [String.toByteArray_singleton, List.utf8Encode, List.flatMap_singleton, h]
    exact ByteArray.ext (by simp)
  unfold firstChar String.fromUTF8?
  rw [hbytes, dif_pos (String.singleton c).isValidUTF8, Option.bind_some]
  have hsame : String.fromUTF8 _ (String.singleton c).isValidUTF8 = String.singleton c := rfl
  rw [hsame, String.toList_singleton]
  rfl

theorem Token.bytes_pos (token : Token) : 0 < token.bytes.length := by
  cases token with
  | char c =>
      obtain ⟨first, rest, hbytes, -⟩ := utf8EncodeChar_first c
      rw [Token.bytes, hbytes]
      exact Nat.succ_pos _
  | sequence => exact Nat.one_pos
  | terminator => exact Nat.one_pos

/-! ## The scanner -/

/-- The scanner, on the units of a table. -/
def scanTokens (glyphCount : Nat) (c : Char) : Nat → List Token → Option Nat
  | _, [] => none
  | glyph, token :: rest =>
      if glyph < glyphCount then
        match token with
        | .char c' => if c' = c then some glyph else scanTokens glyphCount c glyph rest
        | .sequence => scanTokens glyphCount c glyph rest
        | .terminator => scanTokens glyphCount c (glyph + 1) rest
      else none

namespace Psf2Font

section Steps

variable {table : Slice UInt8} {glyphCount glyph rounds : Nat} {c : Char} {before rest : List UInt8}

theorem index_append {first : UInt8} {more : List UInt8}
    (h : table.items = before ++ (first :: more) ++ rest) :
    (table.index before.length : Fallible Unit UInt8) = ok first := by
  refine Slice.index_eq_ok ?_
  rw [h]
  simp

/-- A round at a character stops there, or goes on behind it. -/
theorem scan_char {c' : Char} (h : table.items = before ++ String.utf8EncodeChar c' ++ rest)
    (hglyph : glyph < glyphCount) :
    scan table glyphCount c (rounds + 1) glyph before.length =
      if c' = c then ok glyph
      else scan table glyphCount c rounds glyph
        (before.length + (String.utf8EncodeChar c').length) := by
  have hfits : table.length < wordSize := table.fits
  obtain ⟨first, more, hbytes, hwidth⟩ := utf8EncodeChar_first c'
  obtain ⟨hff, hfe⟩ := ne_marker_of_utf8SequenceLen hwidth
  have hindex := index_append (by rwa [hbytes] at h)
  have hstop : before.length + (String.utf8EncodeChar c').length ≤ table.length := by
    show _ ≤ table.items.length
    rw [h, List.length_append, List.length_append]
    omega
  have hpos : 0 < (String.utf8EncodeChar c').length := by
    rw [hbytes]
    exact Nat.succ_pos _
  have hsum : checkedAdd before.length (String.utf8EncodeChar c').length =
      some (before.length + (String.utf8EncodeChar c').length) :=
    checkedAdd_eq_some.mpr ⟨rfl, by omega⟩
  have hget := Slice.get?_of_le (Nat.le_add_right before.length _) hstop
  have hchar : firstChar (table.between before.length
      (before.length + (String.utf8EncodeChar c').length)) = some c' := by
    refine firstChar_utf8EncodeChar ?_
    simp [Slice.between, h]
  rw [scan, if_pos ⟨hglyph, by omega⟩, hindex, ok_bind, if_neg hff, if_neg hfe, hwidth]
  simp only [ofOption, ok_bind, hsum, hget, hchar, Option.some_inj]

theorem length_of_append {first : UInt8} (h : table.items = before ++ [first] ++ rest) :
    before.length < table.length := by
  show _ < table.items.length
  rw [h]
  simp

/-- A round at the start of a sequence skips the marker. -/
theorem scan_sequence (h : table.items = before ++ [0xfe] ++ rest) (hglyph : glyph < glyphCount) :
    scan table glyphCount c (rounds + 1) glyph before.length =
      scan table glyphCount c rounds glyph (before.length + 1) := by
  have hin := length_of_append h
  have hfits : table.length < wordSize := table.fits
  rw [scan, if_pos ⟨hglyph, hin⟩, index_append h, ok_bind, if_neg (by decide), if_pos rfl,
    add_of_lt (by omega), ok_bind]

/-- A round at the end of an entry goes on to the next glyph. -/
theorem scan_terminator (hcount : glyphCount < wordSize)
    (h : table.items = before ++ [0xff] ++ rest) (hglyph : glyph < glyphCount) :
    scan table glyphCount c (rounds + 1) glyph before.length =
      scan table glyphCount c rounds (glyph + 1) (before.length + 1) := by
  have hin := length_of_append h
  have hfits : table.length < wordSize := table.fits
  rw [scan, if_pos ⟨hglyph, hin⟩, index_append h, ok_bind, if_pos rfl, add_of_lt (by omega), ok_bind,
    add_of_lt (by omega), ok_bind]

end Steps

/-- **The scanner follows the units of the table**, one in each round. -/
theorem scan_tokens {table : Slice UInt8} {glyphCount : Nat} (hcount : glyphCount < wordSize)
    (c : Char) (tokens : List Token) : ∀ {glyph rounds : Nat} {before : List UInt8},
    table.items = before ++ tokens.flatMap Token.bytes → table.length < rounds + before.length →
    scan table glyphCount c rounds glyph before.length =
      ofOption () (scanTokens glyphCount c glyph tokens) := by
  induction tokens with
  | nil =>
      intro glyph rounds before hitems hrounds
      have hend : table.length = before.length := by
        show table.items.length = _
        rw [hitems, List.flatMap_nil, List.append_nil]
      obtain ⟨rounds, rfl⟩ := Nat.exists_eq_succ_of_ne_zero (show rounds ≠ 0 by omega)
      rw [scan, if_neg (by omega)]
      rfl
  | cons token rest ih =>
      intro glyph rounds before hitems hrounds
      rw [List.flatMap_cons, ← List.append_assoc] at hitems
      have hlength : before.length + token.bytes.length ≤ table.length := by
        show _ ≤ table.items.length
        rw [hitems, List.length_append, List.length_append]
        omega
      obtain ⟨rounds, rfl⟩ := Nat.exists_eq_succ_of_ne_zero (show rounds ≠ 0 by omega)
      -- behind the unit, with the rounds that are left
      have hrest : ∀ {glyph' : Nat},
          scan table glyphCount c rounds glyph' (before.length + token.bytes.length) =
            ofOption () (scanTokens glyphCount c glyph' rest) := by
        intro glyph'
        have hpos := token.bytes_pos
        have hnext := @ih glyph' rounds (before ++ token.bytes) hitems
          (by rw [List.length_append]; omega)
        rwa [List.length_append] at hnext
      by_cases hglyph : glyph < glyphCount
      · cases token with
        | char c' =>
            rw [scanTokens, if_pos hglyph, scan_char hitems hglyph]
            by_cases hc : c' = c
            · rw [if_pos hc, if_pos hc]
              rfl
            · rw [if_neg hc, if_neg hc]
              exact hrest
        | sequence =>
            rw [scanTokens, if_pos hglyph, scan_sequence hitems hglyph]
            exact hrest
        | terminator =>
            rw [scanTokens, if_pos hglyph, scan_terminator hcount hitems hglyph]
            exact hrest
      · have hnone : scanTokens glyphCount c glyph (token :: rest) = none := by
          rw [scanTokens.eq_def]
          exact if_neg hglyph
        rw [scan, if_neg fun h => hglyph h.1, hnone]
        rfl

end Psf2Font

section Entries

variable {glyphCount glyph : Nat} {c : Char}

theorem scanTokens_chars (hglyph : glyph < glyphCount) (chars : List Char) (rest : List Token) :
    scanTokens glyphCount c glyph (chars.map .char ++ rest) =
      if c ∈ chars then some glyph else scanTokens glyphCount c glyph rest := by
  induction chars with
  | nil => simp
  | cons c' chars ih =>
      rw [List.map_cons, List.cons_append, scanTokens, if_pos hglyph, ih]
      by_cases hc : c' = c
      · simp [hc]
      · simp [hc, Ne.symm hc]

/-- The characters of a sequence count as single ones. -/
theorem scanTokens_sequences (hglyph : glyph < glyphCount) (sequences : List (List Char))
    (rest : List Token) :
    scanTokens glyphCount c glyph
        ((sequences.flatMap fun sequence => .sequence :: sequence.map .char) ++ rest) =
      if ∃ sequence ∈ sequences, c ∈ sequence then some glyph
      else scanTokens glyphCount c glyph rest := by
  induction sequences with
  | nil => simp
  | cons sequence sequences ih =>
      rw [List.flatMap_cons, List.cons_append, List.cons_append, scanTokens, if_pos hglyph,
        List.append_assoc, scanTokens_chars hglyph, ih]
      by_cases hc : c ∈ sequence
      · simp [hc]
      · simp [hc]

theorem scanTokens_entry (hglyph : glyph < glyphCount) (entry : GlyphEntry) (rest : List Token) :
    scanTokens glyphCount c glyph (entry.tokens ++ rest) =
      if entry.Mentions c then some glyph else scanTokens glyphCount c (glyph + 1) rest := by
  rw [GlyphEntry.tokens, List.append_assoc, List.append_assoc, scanTokens_chars hglyph,
    scanTokens_sequences hglyph, List.singleton_append, scanTokens, if_pos hglyph]
  unfold GlyphEntry.Mentions
  by_cases hc : c ∈ entry.alone
  · simp [hc]
  · simp [hc]

/-- The scanner finds the first entry that mentions the character. -/
theorem scanTokens_entries (entries : List GlyphEntry) : ∀ {glyph : Nat},
    glyph + entries.length ≤ glyphCount →
    scanTokens glyphCount c glyph (entries.flatMap GlyphEntry.tokens) =
      (entries.findIdx? fun entry => entry.Mentions c).map (· + glyph) := by
  induction entries with
  | nil => intro glyph _; rfl
  | cons entry entries ih =>
      intro glyph hcount
      rw [List.length_cons] at hcount
      rw [List.flatMap_cons, scanTokens_entry (by omega), List.findIdx?_cons]
      by_cases hc : entry.Mentions c
      · simp [hc]
      · rw [if_neg hc, ih (show glyph + 1 + entries.length ≤ glyphCount by omega),
          decide_eq_false hc]
        cases entries.findIdx? fun entry => decide (entry.Mentions c) with
        | none => rfl
        | some i =>
            simp
            omega

end Entries

namespace Psf2Font

variable {font : Psf2Font} {entries : List GlyphEntry}

/-- What the source finds in a well-formed table. -/
theorem unicodeGlyphIndex_eq_mention (hsound : font.Sound) (htable : font.HasTable entries)
    (c : Char) : font.unicodeGlyphIndex c =
      ofOption () (entries.findIdx? fun entry => entry.Mentions c) := by
  have hscan := @scan_tokens font.table font.glyphCount hsound.glyphCount_lt c
    (entries.flatMap GlyphEntry.tokens) 0 (font.table.length + 1) [] htable.bytes
    (Nat.lt_succ_self _)
  rw [hsound.unicodeGlyphIndex_eq]
  refine hscan.trans ?_
  rw [scanTokens_entries entries (by rw [htable.length]; omega)]
  simp

/-- The glyph of a character of a well-formed table. -/
theorem glyphIndex_eq_mention (hsound : font.Sound) (htable : font.HasTable entries) (c : Char) :
    font.glyphIndex c =
      ok ((entries.findIdx? fun entry => entry.Mentions c).getD (font.directGlyph c)) := by
  rw [glyphIndex, if_pos htable.flag, unicodeGlyphIndex_eq_mention hsound htable]
  cases entries.findIdx? fun entry => entry.Mentions c with
  | none => rfl
  | some g => rfl

/-- An entry with the character alone comes no later than any with a sequence of it. -/
def Covered (entries : List GlyphEntry) (c : Char) : Prop :=
  ∀ (g : Nat) (entry : GlyphEntry), entries[g]? = some entry →
    (∃ sequence ∈ entry.sequences, c ∈ sequence) →
    ∃ g' ≤ g, ∃ entry' : GlyphEntry, entries[g']? = some entry' ∧ c ∈ entry'.alone

/-- Then the first mention is the first entry with the character alone. -/
theorem covered_iff (entries : List GlyphEntry) (c : Char) :
    Covered entries c ↔ (entries.findIdx? fun entry => entry.Mentions c) =
      entries.findIdx? (c ∈ GlyphEntry.alone ·) := by
  induction entries with
  | nil => simp [Covered]
  | cons entry entries ih =>
      rw [List.findIdx?_cons, List.findIdx?_cons]
      by_cases halone : c ∈ entry.alone
      · have hmentions : entry.Mentions c := .inl halone
        simp only [halone, hmentions, decide_true, if_true, iff_true]
        exact fun g _ _ _ => ⟨0, Nat.zero_le g, entry, rfl, halone⟩
      · by_cases hsequence : ∃ sequence ∈ entry.sequences, c ∈ sequence
        · -- this entry is the first mention, and no entry before it has the character
          have hmentions : entry.Mentions c := .inr hsequence
          simp only [halone, hmentions, decide_true, decide_false, if_true]
          constructor
          · intro hcovered
            obtain ⟨g', hle, entry', hentry', halone'⟩ := hcovered 0 entry rfl hsequence
            rw [Nat.le_zero.mp hle, List.getElem?_cons_zero, Option.some_inj] at hentry'
            exact absurd (hentry' ▸ halone') halone
          · simp
        · have hmentions : ¬ entry.Mentions c := not_or.mpr ⟨halone, hsequence⟩
          simp only [halone, hmentions, decide_false]
          rw [if_neg Bool.false_ne_true, if_neg Bool.false_ne_true,
            (Option.map_injective (add_left_injective 1)).eq_iff, ← ih]
          constructor
          · intro hcovered g entry' hentry' hsequence'
            obtain ⟨g', hle, found, hfound, halone'⟩ := hcovered (g + 1) entry' hentry' hsequence'
            cases g' with
            | zero => exact absurd (Option.some_inj.mp hfound ▸ halone') halone
            | succ g' => exact ⟨g', by omega, found, hfound, halone'⟩
          · intro hcovered g entry' hentry' hsequence'
            cases g with
            | zero => exact absurd (Option.some_inj.mp hentry' ▸ hsequence') hsequence
            | succ g =>
                obtain ⟨g', hle, found, hfound, halone'⟩ := hcovered g entry' hentry' hsequence'
                exact ⟨g' + 1, by omega, found, hfound, halone'⟩

/-- **When the table is read as the format defines it**: for exactly the characters
that no glyph has in a sequence before some glyph has them alone. -/
theorem interprets_iff {data : Slice UInt8} (hparse : parse data = ok font)
    (htable : font.HasTable entries) (c : Char) :
    font.Interprets entries c ↔ Covered entries c := by
  have hsound := parse_sound hparse
  have hglyph := glyphIndex_eq_mention hsound htable c
  have hunicode := unicodeGlyphIndex_eq_mention hsound htable c
  rw [covered_iff]
  constructor
  · rintro ⟨hlisted, hunlisted⟩
    cases halone : entries.findIdx? (c ∈ GlyphEntry.alone ·) with
    | none =>
        have hnone : ∀ entry ∈ entries, c ∉ entry.alone := by
          simpa [List.findIdx?_eq_none_iff] using halone
        rw [hunlisted hnone] at hunicode
        cases hmention : entries.findIdx? fun entry => entry.Mentions c with
        | none => rfl
        | some g => rw [hmention] at hunicode; cases hunicode
    | some g =>
        rw [hlisted g halone] at hglyph
        cases hmention : entries.findIdx? fun entry => entry.Mentions c with
        | none =>
            -- the entry with the character alone mentions it
            obtain ⟨hg, hin, -⟩ := List.findIdx?_eq_some_iff_getElem.mp halone
            have := List.findIdx?_eq_none_iff.mp hmention _ (List.getElem_mem hg)
            simp only [decide_eq_true_eq, decide_eq_false_iff_not] at hin this
            exact absurd (.inl hin) this
        | some i =>
            rw [hmention] at hglyph
            cases hglyph
            rfl
  · intro hsame
    rw [hsame] at hglyph hunicode
    constructor
    · intro g hg
      rw [hglyph, hg]
      rfl
    · intro hnone
      have halone : entries.findIdx? (c ∈ GlyphEntry.alone ·) = none := by
        simpa [List.findIdx?_eq_none_iff] using hnone
      rw [hunicode, halone]
      rfl

/-- A font of two glyphs, each eight pixels wide and one high, with this table. -/
def twoGlyphs (table : List UInt8) : List UInt8 :=
  [0x72, 0xb5, 0x4a, 0x86, 0, 0, 0, 0, 32, 0, 0, 0, 1, 0, 0, 0,
    2, 0, 0, 0, 1, 0, 0, 0, 1, 0, 0, 0, 8, 0, 0, 0, 0x00, 0x80] ++ table

/-- The first glyph stands for "A" and for "AB" together, the second for "B". -/
def listedFont : Slice UInt8 where
  items := twoGlyphs [0x41, 0xfe, 0x41, 0x42, 0xff, 0x42, 0xff]
  fits := by rw [wordSize]; decide

def listedEntries : List GlyphEntry :=
  [⟨['A'], [['A', 'B']], by decide⟩, ⟨['B'], [], by decide⟩]

/-- A character that the table lists before any sequence of it is read as the format defines it, and
one that only comes later is not. -/
theorem interprets_iff_listed : (fontOf listedFont).Interprets listedEntries 'A' ∧
    ¬ (fontOf listedFont).Interprets listedEntries 'B' := by
  have hparse : parse listedFont = ok (fontOf listedFont) :=
    (parse_decides listedFont).accepts (by constructor <;> decide)
  have htable : (fontOf listedFont).HasTable listedEntries := ⟨by decide, by decide, by decide⟩
  rw [interprets_iff hparse htable, interprets_iff hparse htable, covered_iff, covered_iff]
  decide

/-- A font with the table `FE 41 42 FF 41 FF`: the first glyph stands for "AB" together, the second
for "A". -/
def ligatureFont : Slice UInt8 where
  items := twoGlyphs [0xfe, 0x41, 0x42, 0xff, 0x41, 0xff]
  fits := by rw [wordSize]; decide

def ligatureEntries : List GlyphEntry :=
  [⟨[], [['A', 'B']], by decide⟩, ⟨['A'], [], by decide⟩]

theorem parse_ligatureFont : parse ligatureFont = ok (fontOf ligatureFont) :=
  (parse_decides ligatureFont).accepts (by constructor <;> decide)

theorem hasTable_ligatureFont : (fontOf ligatureFont).HasTable ligatureEntries :=
  ⟨by decide, by decide, by decide⟩

/-- The character of that table that stands alone is read as the first glyph. -/
theorem ligature_not_interpreted : parse ligatureFont = ok (fontOf ligatureFont) ∧
    (fontOf ligatureFont).HasTable ligatureEntries ∧
    ligatureEntries.findIdx? ('A' ∈ GlyphEntry.alone ·) = some 1 ∧
    (fontOf ligatureFont).glyphIndex 'A' = ok 0 ∧
    ¬ (fontOf ligatureFont).Interprets ligatureEntries 'A' := by
  have hfirst : ligatureEntries.findIdx? ('A' ∈ GlyphEntry.alone ·) = some 1 := by decide
  have hglyph : (fontOf ligatureFont).glyphIndex 'A' = ok 0 :=
    glyphIndex_eq_mention (parse_sound parse_ligatureFont) hasTable_ligatureFont 'A'
  refine ⟨parse_ligatureFont, hasTable_ligatureFont, hfirst, hglyph, fun h => ?_⟩
  have hlisted := h.listed 1 hfirst
  rw [hglyph] at hlisted
  cases hlisted

end Psf2Font

end GenericKernel.Psf
