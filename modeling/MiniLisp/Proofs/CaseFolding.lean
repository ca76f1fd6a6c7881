import Mathlib.Tactic.SplitIfs
import MiniLisp.Proofs.Encoding
import MiniLisp.Proofs.TokenPlaces
import MiniLisp.Symbol

/-!
Texts in upper case.  Putting the letters among the first 128 characters in upper case
changes single bytes to single bytes and no other character: the text is read as the same
glyphs in upper case, its glyphs keep their places, and what it names is the same symbol.
-/

namespace MiniLisp

/-! ### Characters -/

/-- A function does not tell the two cases of a letter apart. -/
def Caseless {α : Type} (f : Char → α) : Prop :=
  ∀ c : Char, f c.toUpper = f c

theorem toUpper_of_not_lower {c : Char} (hlower : ¬(97 ≤ c.toNat ∧ c.toNat ≤ 122)) :
    c.toUpper = c :=
  dif_neg hlower

/-- A character is in upper case, or it is one of the 26 letters in lower case. -/
theorem toUpper_cases (c : Char) :
    c.toUpper = c ∨ ∃ n : Fin 26, c = Char.ofNat (97 + n) ∧ c.toUpper = Char.ofNat (65 + n) := by
  by_cases hlower : 97 ≤ c.toNat ∧ c.toNat ≤ 122
  · have hcode : 97 + (c.toNat - 97) = c.toNat := by omega
    have hc : c = Char.ofNat (97 + (c.toNat - 97)) := by rw [hcode, Char.ofNat_toNat]
    have hlt : c.toNat - 97 < 26 := by omega
    refine .inr ⟨⟨c.toNat - 97, hlt⟩, hc, ?_⟩
    generalize c.toNat - 97 = n at hc hlt
    subst hc
    revert n
    decide
  · exact .inl (toUpper_of_not_lower hlower)

/-- It is enough to look at the letters. -/
theorem caseless_of_letters {α : Type} {f : Char → α}
    (hletters : ∀ n : Fin 26, f (Char.ofNat (65 + n)) = f (Char.ofNat (97 + n))) :
    Caseless f := by
  intro c
  rcases toUpper_cases c with hsame | ⟨n, hlower, hupper⟩
  · rw [hsame]
  · rw [hupper, hletters n, ← hlower]

theorem caseless_toUpper : Caseless Char.toUpper :=
  caseless_of_letters (by decide)

theorem caseless_upperChar : Caseless upperChar :=
  caseless_of_letters (by decide +kernel)

theorem caseless_utf8Size : Caseless Char.utf8Size :=
  caseless_of_letters (by decide)

/-! ### Bytes -/

/-- The byte of a letter in lower case is put in upper case; every other byte stays. -/
def upperByte (byte : UInt8) : UInt8 :=
  if 97 ≤ byte ∧ byte ≤ 122 then byte - 32 else byte

theorem upperByte_of_high {byte : UInt8} (hhigh : 128 ≤ byte.toNat) : upperByte byte = byte := by
  rw [upperByte, if_neg]
  simp only [UInt8.le_iff_toNat_le, UInt8.reduceToNat]
  omega

/-- What holds of the first 128 bytes by trying them. -/
theorem forall_low {P : UInt8 → Prop} (hlow : ∀ n : Fin 128, P (UInt8.ofNat n)) {byte : UInt8}
    (hbyte : byte.toNat < 128) : P byte := by
  simpa using hlow ⟨byte.toNat, hbyte⟩

theorem upperByte_low {byte : UInt8} (hbyte : byte.toNat < 128) :
    (upperByte byte).toNat < 128 ∧
      Char.ofNat (upperByte byte).toNat = (Char.ofNat byte.toNat).toUpper := by
  revert hbyte
  exact forall_low (P := fun byte => (upperByte byte).toNat < 128 ∧
    Char.ofNat (upperByte byte).toNat = (Char.ofNat byte.toNat).toUpper) (by decide)

/-- A byte below the letters is the upper-case form of itself only. -/
theorem upperByte_eq_iff {byte other : UInt8} (hother : other.toNat < 65) :
    upperByte byte = other ↔ byte = other := by
  rw [upperByte]
  split_ifs with hlower
  · have hsub : (byte - 32).toNat = byte.toNat - 32 :=
      UInt8.toNat_sub_of_le byte 32 (UInt8.le_trans (by decide) hlower.1)
    simp only [UInt8.le_iff_toNat_le, UInt8.reduceToNat] at hlower
    constructor
    · rintro rfl
      omega
    · rintro rfl
      omega
  · rfl

theorem map_upperByte_utf8EncodeChar (c : Char) :
    (String.utf8EncodeChar c.toUpper).map upperByte = (String.utf8EncodeChar c).map upperByte :=
  caseless_of_letters (f := fun c => (String.utf8EncodeChar c).map upperByte) (by decide) c

/-! ### Glyphs -/

namespace Glyph

def upper : Glyph → Glyph
  | .char c => .char c.toUpper
  | .stray byte => .stray byte

@[simp]
theorem upper_char (c : Char) : (char c).upper = .char c.toUpper := rfl

@[simp]
theorem upper_stray (byte : UInt8) : (stray byte).upper = .stray byte := rfl

@[simp]
theorem upper_upper (glyph : Glyph) : glyph.upper.upper = glyph.upper := by
  cases glyph with
  | char c => exact congrArg char (caseless_toUpper c)
  | stray byte => rfl

theorem satisfies_upper {p : Char → Bool} (hp : Caseless p) (glyph : Glyph) :
    glyph.upper.satisfies p = glyph.satisfies p := by
  cases glyph with
  | char c => exact hp c
  | stray byte => rfl

@[simp]
theorem width_upper (glyph : Glyph) : glyph.upper.width = glyph.width := by
  cases glyph with
  | char c => exact caseless_utf8Size c
  | stray byte => rfl

theorem continuation?_upperByte (byte : UInt8) :
    continuation? (upperByte byte) = continuation? byte := by
  by_cases hbyte : byte.toNat < 128
  · have hupper := (upperByte_low hbyte).1
    have hnone : ∀ byte : UInt8, byte.toNat < 128 → continuation? byte = none := by
      intro byte hlow
      rw [continuation?, if_neg]
      simp only [UInt8.le_iff_toNat_le, UInt8.reduceToNat]
      omega
    rw [hnone _ hupper, hnone _ hbyte]
  · rw [upperByte_of_high (by omega)]

theorem toUpper_ofNat {code : Nat} (hcode : 128 ≤ code) :
    (Char.ofNat code).toUpper = Char.ofNat code := by
  apply toUpper_of_not_lower
  by_cases hvalid : code.isValidChar
  · have hval : (Char.ofNat code).toNat = code := val_ofNat hvalid
    omega
  · rw [Char.ofNat, dif_neg hvalid]
    decide

theorem pair?_upperByte (lead : UInt8) (rest : Bytes) :
    pair? lead (rest.map upperByte) = (pair? lead rest).map Char.toUpper := by
  rcases rest with _ | ⟨b₁, rest⟩
  · rfl
  · simp only [pair?, List.map_cons, continuation?_upperByte, Option.bind_eq_bind]
    cases continuation? b₁ with
    | none => rfl
    | some x₁ =>
        simp only [Option.bind_some]
        split_ifs with hlong
        · rw [Option.map_some, toUpper_ofNat hlong]
        · rfl

theorem triple?_upperByte (lead : UInt8) (rest : Bytes) :
    triple? lead (rest.map upperByte) = (triple? lead rest).map Char.toUpper := by
  rcases rest with _ | ⟨b₁, _ | ⟨b₂, rest⟩⟩
  · rfl
  · rfl
  · simp only [triple?, List.map_cons, continuation?_upperByte, Option.bind_eq_bind]
    cases continuation? b₁ with
    | none => rfl
    | some x₁ =>
        cases continuation? b₂ with
        | none => rfl
        | some x₂ =>
            simp only [Option.bind_some]
            split_ifs with hlong
            · rw [Option.map_some, toUpper_ofNat (by omega)]
            · rfl

theorem quadruple?_upperByte (lead : UInt8) (rest : Bytes) :
    quadruple? lead (rest.map upperByte) = (quadruple? lead rest).map Char.toUpper := by
  rcases rest with _ | ⟨b₁, _ | ⟨b₂, _ | ⟨b₃, rest⟩⟩⟩
  · rfl
  · rfl
  · rfl
  · simp only [quadruple?, List.map_cons, continuation?_upperByte, Option.bind_eq_bind]
    cases continuation? b₁ with
    | none => rfl
    | some x₁ =>
        cases continuation? b₂ with
        | none => rfl
        | some x₂ =>
            cases continuation? b₃ with
            | none => rfl
            | some x₃ =>
                simp only [Option.bind_some]
                split_ifs with hlong
                · rw [Option.map_some, toUpper_ofNat (by omega)]
                · rfl

/-- The glyph at the front of a text in upper case is the one of the text in upper case. -/
theorem starting_upperByte (lead : UInt8) (rest : Bytes) :
    starting (upperByte lead) (rest.map upperByte) = (starting lead rest).upper := by
  by_cases hlead : lead.toNat < 128
  · obtain ⟨hupper, hchar⟩ := upperByte_low hlead
    have hsingle : ∀ (lead : UInt8) (rest : Bytes), lead.toNat < 128 →
        starting lead rest = .char (Char.ofNat lead.toNat) := by
      intro lead rest hlead
      rw [← starting_single (Nat.le_of_lt_succ hlead) rest, UInt8.ofNat_toNat]
    rw [hsingle _ _ hupper, hsingle _ _ hlead, upper_char, hchar]
  · have hlong : ¬lead < 0x80 := hlead
    rw [upperByte_of_high (by omega), starting, starting, pair?_upperByte, triple?_upperByte,
      quadruple?_upperByte]
    simp only [hlong, ↓reduceIte]
    split_ifs with htwo hthree hfour
    · cases pair? lead rest <;> rfl
    · cases triple? lead rest <;> rfl
    · cases quadruple? lead rest <;> rfl
    · rfl

end Glyph

/-- A text in upper case is read as the glyphs of the text in upper case. -/
theorem glyphs_map_upperByte (text : Bytes) :
    glyphs (text.map upperByte) = (glyphs text).map Glyph.upper := by
  match text with
  | [] => rfl
  | lead :: rest =>
      rw [List.map_cons, glyphs_cons, glyphs_cons, Glyph.starting_upperByte, Glyph.width_upper,
        ← List.map_drop, glyphs_map_upperByte, List.map_cons]
termination_by text.length
decreasing_by
  simp only [List.length_drop, List.length_cons]
  omega

theorem glyphWidth_map_upper (text : List Glyph) :
    glyphWidth (text.map Glyph.upper) = glyphWidth text := by
  induction text with
  | nil => rfl
  | cons glyph text ih =>
      rw [List.map_cons, glyphWidth_cons, glyphWidth_cons, ih, Glyph.width_upper]

/-! ### Names and places -/

theorem upcase_map_upperByte (text : Bytes) : upcase (text.map upperByte) = upcase text := by
  have hglyph : ∀ glyph : Glyph, upperChar glyph.upper.toChar = upperChar glyph.toChar := by
    intro glyph
    cases glyph with
    | char c => exact caseless_upperChar c
    | stray byte => rfl
  simp only [upcase, mapChars, glyphs_map_upperByte, List.flatMap_map, hglyph]

theorem glyphBytes_map_upper (text : List Glyph) :
    (glyphBytes (text.map Glyph.upper)).map upperByte = (glyphBytes text).map upperByte := by
  induction text with
  | nil => rfl
  | cons glyph text ih =>
      have hglyph : glyph.upper.bytes.map upperByte = glyph.bytes.map upperByte := by
        cases glyph with
        | char c => exact map_upperByte_utf8EncodeChar c
        | stray byte => rfl
      rw [glyphBytes] at ih
      rw [glyphBytes, List.map_cons, List.flatMap_cons, List.map_append, hglyph, ih,
        ← List.map_append]
      rfl

/-- A name in upper case denotes the same symbol. -/
theorem intern_map_upper (name : List Glyph) :
    Symbol.intern (glyphBytes (name.map Glyph.upper)) = Symbol.intern (glyphBytes name) := by
  rw [Symbol.intern, Symbol.intern, ← upcase_map_upperByte, glyphBytes_map_upper,
    upcase_map_upperByte]

/-- Lines and columns are the same in upper case. -/
theorem locate_map_upperByte (file text : Bytes) (offset : Nat) :
    locate file (text.map upperByte) offset = locate file text offset := by
  have hline : ∀ byte : UInt8, (upperByte byte == 10) = (byte == 10) := by
    intro byte
    rw [Bool.eq_iff_iff, beq_iff_eq, beq_iff_eq, upperByte_eq_iff (by decide)]
  have hcount : ((text.take offset).map upperByte).count 10 = (text.take offset).count 10 := by
    simp only [List.count, List.countP_map, Function.comp_def, hline]
  simp only [locate, ← List.map_take, hcount, ← List.map_reverse, List.takeWhile_map,
    Function.comp_def, bne, hline, glyphs_map_upperByte, List.length_map]

/-! ### Classes of characters -/

theorem toUpper_eq_iff (mark : Char) (hmark : mark.isAlpha = false) (c : Char) :
    c.toUpper = mark ↔ c = mark := by
  have hletter : ∀ n : Fin 26, (Char.ofNat (65 + n)).isAlpha = true ∧
      (Char.ofNat (97 + n)).isAlpha = true := by decide
  rcases toUpper_cases c with hsame | ⟨n, hlower, hupper⟩
  · rw [hsame]
  · obtain ⟨hupper', hlower'⟩ := hletter n
    rw [← hupper] at hupper'
    rw [← hlower] at hlower'
    constructor
    · rintro rfl
      simp [hmark] at hupper'
    · rintro rfl
      simp [hmark] at hlower'

theorem Glyph.isChar_upper {mark : Char} (hmark : mark.isAlpha = false) (glyph : Glyph) :
    glyph.upper.isChar mark = glyph.isChar mark := by
  apply satisfies_upper
  intro c
  rw [Bool.eq_iff_iff, beq_iff_eq, beq_iff_eq, toUpper_eq_iff mark hmark]

/-! ### Texts without literals -/

/-- No string literal starts in the text. -/
def Unquoted (text : List Glyph) : Prop :=
  ∀ glyph ∈ text, glyph.isChar '"' = false

theorem Unquoted.of_suffix {text rest : List Glyph} (hunquoted : Unquoted text)
    (hsuffix : rest <:+ text) : Unquoted rest :=
  fun glyph hmem => hunquoted glyph (hsuffix.subset hmem)

theorem unquoted_glyphs {text : Bytes} (hquote : 34 ∉ text) : Unquoted (glyphs text) := by
  intro glyph hmem
  cases glyph with
  | stray byte => rfl
  | char c =>
      have hne : c ≠ '"' := by
        rintro rfl
        apply hquote
        rw [← glyphBytes_glyphs text]
        exact List.mem_flatMap.mpr ⟨_, hmem, by decide⟩
      simpa [Glyph.isChar, Glyph.satisfies] using hne

end MiniLisp
