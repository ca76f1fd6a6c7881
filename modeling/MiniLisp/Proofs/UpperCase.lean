import Mathlib.Tactic.SplitIfs
import MiniLisp.Proofs.Lexing
import MiniLisp.Text.LetterCase

/-!
Upper case.  The upper-case form of a character is the character itself or a letter
that has no other upper-case form, so upper case is stable.  The table is checked range
by range: the forms of a range lie among the letters and outside of all ranges.
-/

namespace MiniLisp

namespace CaseRange

/-- The first and the last of the other forms of a range. -/
def low (range : CaseRange) : Nat :=
  (range.first + range.shift).toNat

@[inherit_doc CaseRange.low]
def high (range : CaseRange) : Nat :=
  (range.last + range.shift).toNat

/-- Whether no range names a code point from `low` to `high` that is a multiple of
`step` away from `low`, as far as the looking up of such code points goes. -/
def misses (low high step : Nat) : List CaseRange → Bool
  | [] => true
  | range :: rest =>
      if range.last < low then misses low high step rest
      else
        high < range.first ||
          (step == 2 || low == high) && range.step == 2 && (low + range.first) % 2 == 1 &&
            misses low high step rest

theorem image_of_misses {low high step code : Nat} {ranges : List CaseRange}
    (hmisses : misses low high step ranges = true) (hlow : low ≤ code) (hhigh : code ≤ high)
    (hstep : (code - low) % step = 0) : image ranges code = code := by
  induction ranges with
  | nil => rfl
  | cons range rest ih =>
      simp only [misses] at hmisses
      rw [image]
      split_ifs with hbefore hcovers
      · rfl
      · -- The range would have to begin behind `high`, or name only code points of the
        -- other parity.
        simp only [covers, Bool.and_eq_true, decide_eq_true_eq, beq_iff_eq] at hcovers
        obtain ⟨⟨hfirst, hlast⟩, hmultiple⟩ := hcovers
        rw [if_neg (by omega)] at hmisses
        simp only [Bool.or_eq_true, Bool.and_eq_true, decide_eq_true_eq, beq_iff_eq] at hmisses
        rcases hmisses with hbeyond | ⟨⟨⟨htwo | hone, htwo'⟩, hodd⟩, _⟩
        · omega
        · rw [htwo] at hstep
          rw [htwo'] at hmultiple
          omega
        · rw [htwo'] at hmultiple
          omega
      · split_ifs at hmisses with hbelow
        · exact ih hmisses
        · simp only [Bool.or_eq_true, Bool.and_eq_true, decide_eq_true_eq] at hmisses
          rcases hmisses with hbeyond | ⟨_, hrest⟩
          · omega
          · exact ih hrest

/-- Whether the code points from `low` to `high` are characters that a symbol may start
with: they are no digits, marks or white space. -/
def amongLetters (low high : Nat) : Bool :=
  65 ≤ low && high ≤ 90 || 192 ≤ low && high < 0x1680 || 0x1680 < low && high < 0x2000 ||
    0x205F < low && high < 0x3000 || 0x3000 < low && high < 0xD800 ||
    0xDFFF < low && high < 0x110000

theorem upperRanges_settle :
    (upperRanges.all fun range => amongLetters range.low range.high &&
      misses range.low range.high range.step upperRanges) = true := by
  decide +kernel

theorem image_eq_or {ranges : List CaseRange} (code : Nat) :
    image ranges code = code ∨
      ∃ range ∈ ranges, range.covers code = true ∧
        image ranges code = (code + range.shift).toNat := by
  induction ranges with
  | nil => exact .inl rfl
  | cons range rest ih =>
      rw [image]
      split_ifs with hbefore hcovers
      · exact .inl rfl
      · exact .inr ⟨range, by simp, hcovers, rfl⟩
      · rcases ih with hsame | ⟨range', hmem, hcovers', himage⟩
        · exact .inl hsame
        · exact .inr ⟨range', by simp [hmem], hcovers', himage⟩

/-- A code point has no other form, or one among the letters that has no other form. -/
theorem image_upperRanges (code : Nat) :
    image upperRanges code = code ∨
      amongLetters (image upperRanges code) (image upperRanges code) = true ∧
        image upperRanges (image upperRanges code) = image upperRanges code := by
  rcases @image_eq_or upperRanges code with hsame | ⟨range, hmem, hcovers, himage⟩
  · exact .inl hsame
  · have hsettle := List.all_eq_true.mp upperRanges_settle range hmem
    rw [Bool.and_eq_true] at hsettle
    obtain ⟨hletters, hmisses⟩ := hsettle
    simp only [covers, Bool.and_eq_true, decide_eq_true_eq, beq_iff_eq] at hcovers
    obtain ⟨⟨hfirst, hlast⟩, hmultiple⟩ := hcovers
    rw [himage]
    -- Shifts may be negative; a form from 65 on is no result of cutting off at zero.
    have hpositive : 65 ≤ range.low := by
      simp only [amongLetters, Bool.or_eq_true, Bool.and_eq_true, decide_eq_true_eq] at hletters
      omega
    have hlow : range.low ≤ (code + range.shift).toNat := by
      rw [low] at hpositive ⊢
      omega
    have hhigh : (code + range.shift).toNat ≤ range.high := by
      rw [high]
      omega
    have hoffset : (code + range.shift).toNat - range.low = code - range.first := by
      rw [low] at hpositive ⊢
      omega
    refine .inr ⟨?_, image_of_misses hmisses hlow hhigh (hoffset ▸ hmultiple)⟩
    simp only [amongLetters, Bool.or_eq_true, Bool.and_eq_true, decide_eq_true_eq] at hletters ⊢
    omega

end CaseRange

/-- A character that may stand anywhere in a symbol and starts neither a number nor a
dot. -/
structure Letter (c : Char) : Prop where
  symbolChar : Lexer.isSymbolChar c = true
  noMark : Lexer.isMark c = false
  noDigit : Lexer.isDigit c = false
  noSign : c ≠ '-'
  noDot : c ≠ '.'

theorem toNat_ofNat_of_amongLetters {code : Nat}
    (hletters : CaseRange.amongLetters code code = true) : (Char.ofNat code).toNat = code := by
  have hvalid : code.isValidChar := by
    simp only [CaseRange.amongLetters, Bool.or_eq_true, Bool.and_eq_true,
      decide_eq_true_eq] at hletters
    rw [Nat.isValidChar]
    omega
  rw [Char.ofNat, dif_pos hvalid]
  rfl

theorem letter_of_amongLetters {c : Char}
    (hletters : CaseRange.amongLetters c.toNat c.toNat = true) : Letter c := by
  simp only [CaseRange.amongLetters, Bool.or_eq_true, Bool.and_eq_true,
    decide_eq_true_eq] at hletters
  have hne : ∀ other : Char, other.toNat < 65 → c ≠ other := by
    rintro other hother rfl
    omega
  have hblank : isBlank c = false := by
    have hspace : (c == ' ') = false := by simpa using hne ' ' (by decide)
    simp only [isBlank, isAsciiBlank, hspace, Bool.false_or, Bool.or_eq_false_iff,
      Bool.and_eq_false_iff, decide_eq_false_iff_not, beq_eq_false_iff_ne]
    omega
  constructor
  · simp [Lexer.isSymbolChar, Lexer.isDelimiter, hblank, hne '(' (by decide),
      hne ')' (by decide), hne '\'' (by decide), hne '"' (by decide)]
  · simp [Lexer.isMark, hne '(' (by decide), hne ')' (by decide), hne '\'' (by decide),
      hne ';' (by decide), hne '"' (by decide)]
  · have hnine : ¬c ≤ '9' := by
      rw [Char.le_def, UInt32.le_iff_toNat_le]
      change ¬c.toNat ≤ 57
      omega
    simp [Lexer.isDigit, hnine]
  · exact hne '-' (by decide)
  · exact hne '.' (by decide)

/-- The upper-case form of a character is the character itself or a letter. -/
theorem upperChar_eq_or_letter (c : Char) : upperChar c = c ∨ Letter (upperChar c) := by
  rcases CaseRange.image_upperRanges c.toNat with hsame | ⟨hletters, _⟩
  · left
    rw [upperChar, hsame, Char.ofNat_toNat]
  · right
    apply letter_of_amongLetters
    rwa [upperChar, toNat_ofNat_of_amongLetters hletters]

/-- Upper case is stable. -/
theorem upperChar_upperChar (c : Char) : upperChar (upperChar c) = upperChar c := by
  rcases CaseRange.image_upperRanges c.toNat with hsame | ⟨hletters, hstable⟩
  · have hself : upperChar c = c := by rw [upperChar, hsame, Char.ofNat_toNat]
    rw [hself, hself]
  · rw [upperChar, upperChar, toNat_ofNat_of_amongLetters hletters, hstable]

end MiniLisp
