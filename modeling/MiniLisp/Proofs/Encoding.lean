import Mathlib.Tactic.SplitIfs
import MiniLisp.Text.Glyph

/-!
Reading bytes as glyphs.  The encoding of a character is read as that character,
whatever follows it, so encoded characters are read back one by one.  A line feed is
part of no longer sequence: the glyphs before it do not depend on what follows it.
Written back, the glyphs of a text are that text.
-/

namespace MiniLisp

/-- The bytes of characters one after the other. -/
def encode (chars : List Char) : Bytes :=
  chars.flatMap String.utf8EncodeChar

@[simp]
theorem encode_nil : encode [] = [] := rfl

theorem encode_cons (c : Char) (chars : List Char) :
    encode (c :: chars) = String.utf8EncodeChar c ++ encode chars := rfl

theorem encode_append (chars chars' : List Char) :
    encode (chars ++ chars') = encode chars ++ encode chars' :=
  List.flatMap_append

theorem encode_ne_nil {chars : List Char} (hchars : chars ≠ []) : encode chars ≠ [] := by
  obtain ⟨c, rest, rfl⟩ := List.exists_cons_of_ne_nil hchars
  rw [encode_cons]
  exact List.append_ne_nil_of_left_ne_nil String.utf8EncodeChar_ne_nil _

theorem glyphBytes_map_char (chars : List Char) :
    glyphBytes (chars.map Glyph.char) = encode chars :=
  List.flatMap_map Glyph.char Glyph.bytes chars

theorem glyphBytes_append (text more : List Glyph) :
    glyphBytes (text ++ more) = glyphBytes text ++ glyphBytes more :=
  List.flatMap_append

/-! ### One glyph after the other -/

theorem glyphsOnto_skip (found : List Glyph) (skip : Nat) (text : Bytes) :
    glyphsOnto found skip text = glyphsOnto found 0 (text.drop skip) := by
  induction text generalizing skip with
  | nil => simp [glyphsOnto]
  | cons byte text ih =>
      cases skip with
      | zero => rfl
      | succ skip => exact ih skip

theorem glyphsOnto_found (found : List Glyph) (skip : Nat) (text : Bytes) :
    glyphsOnto found skip text = glyphsOnto [] skip text ++ found := by
  induction text generalizing found skip with
  | nil => rfl
  | cons byte text ih =>
      cases skip with
      | succ skip => exact ih found skip
      | zero =>
          rw [glyphsOnto, glyphsOnto, ih, ih [Glyph.starting byte text]]
          simp

@[simp]
theorem glyphs_nil : glyphs [] = [] := rfl

/-- A text is read as the glyph at its front, and then from behind that glyph. -/
theorem glyphs_cons (lead : UInt8) (rest : Bytes) :
    glyphs (lead :: rest) =
      Glyph.starting lead rest ::
        glyphs (rest.drop ((Glyph.starting lead rest).width - 1)) := by
  simp only [glyphs, glyphsOnto]
  rw [glyphsOnto_skip, glyphsOnto_found]
  simp

/-! ### Encoded characters -/

namespace Glyph

theorem continuation?_ofNat {low : Nat} (hlow : low < 64) :
    continuation? (UInt8.ofNat (low + 128)) = some low := by
  have hbyte : (UInt8.ofNat (low + 128)).toNat = low + 128 :=
    UInt8.toNat_ofNat_of_lt' (show low + 128 < 256 by omega)
  have hrange : 0x80 ≤ UInt8.ofNat (low + 128) ∧ UInt8.ofNat (low + 128) ≤ 0xBF := by
    simp only [UInt8.le_iff_toNat_le, hbyte, UInt8.reduceToNat]
    omega
  rw [continuation?, if_pos hrange, hbyte, Nat.add_sub_cancel]

theorem starting_single {code : Nat} (hcode : code ≤ 127) (rest : Bytes) :
    starting (UInt8.ofNat code) rest = .char (Char.ofNat code) := by
  have hbyte : (UInt8.ofNat code).toNat = code :=
    UInt8.toNat_ofNat_of_lt' (show code < 256 by omega)
  have hlead : code < 128 := by omega
  simp only [starting, UInt8.lt_iff_toNat_lt, hbyte, UInt8.reduceToNat, hlead, ↓reduceIte]

theorem starting_pair {high low : Nat} (hhigh : 2 ≤ high) (hhigh' : high < 32)
    (hlow : low < 64) (rest : Bytes) :
    starting (UInt8.ofNat (high + 192)) (UInt8.ofNat (low + 128) :: rest) =
      .char (Char.ofNat (high * 64 + low)) := by
  have hbyte : (UInt8.ofNat (high + 192)).toNat = high + 192 :=
    UInt8.toNat_ofNat_of_lt' (show high + 192 < 256 by omega)
  have hlead : ¬high + 192 < 128 ∧ 192 ≤ high + 192 ∧ high + 192 < 224 := by omega
  have hlong : 128 ≤ high * 64 + low := by omega
  simp only [starting, UInt8.lt_iff_toNat_lt, UInt8.le_iff_toNat_le, hbyte, UInt8.reduceToNat,
    hlead, and_self, ↓reduceIte, pair?, continuation?_ofNat hlow, Option.bind_eq_bind,
    Option.bind_some, Nat.add_sub_cancel, hlong]

theorem starting_triple {high middle low : Nat} (hhigh : high < 16) (hmiddle : middle < 64)
    (hlow : low < 64) (hlong : 0x800 ≤ (high * 64 + middle) * 64 + low)
    (hscalar : ¬(0xD800 ≤ (high * 64 + middle) * 64 + low ∧
      (high * 64 + middle) * 64 + low ≤ 0xDFFF)) (rest : Bytes) :
    starting (UInt8.ofNat (high + 224))
        (UInt8.ofNat (middle + 128) :: UInt8.ofNat (low + 128) :: rest) =
      .char (Char.ofNat ((high * 64 + middle) * 64 + low)) := by
  have hbyte : (UInt8.ofNat (high + 224)).toNat = high + 224 :=
    UInt8.toNat_ofNat_of_lt' (show high + 224 < 256 by omega)
  have hlead : ¬high + 224 < 128 ∧ ¬high + 224 < 224 ∧ 224 ≤ high + 224 ∧
      high + 224 < 240 := by omega
  simp only [starting, UInt8.lt_iff_toNat_lt, UInt8.le_iff_toNat_le, hbyte, UInt8.reduceToNat,
    hlead, and_false, and_self, ↓reduceIte, triple?, continuation?_ofNat hlow,
    continuation?_ofNat hmiddle, Option.bind_eq_bind, Option.bind_some, Nat.add_sub_cancel,
    hlong, hscalar, not_false_eq_true]

theorem starting_quadruple {high upper middle low : Nat} (hhigh : high < 8)
    (hupper : upper < 64) (hmiddle : middle < 64) (hlow : low < 64)
    (hlong : 0x10000 ≤ ((high * 64 + upper) * 64 + middle) * 64 + low ∧
      ((high * 64 + upper) * 64 + middle) * 64 + low ≤ 0x10FFFF) (rest : Bytes) :
    starting (UInt8.ofNat (high + 240))
        (UInt8.ofNat (upper + 128) :: UInt8.ofNat (middle + 128) ::
          UInt8.ofNat (low + 128) :: rest) =
      .char (Char.ofNat (((high * 64 + upper) * 64 + middle) * 64 + low)) := by
  have hbyte : (UInt8.ofNat (high + 240)).toNat = high + 240 :=
    UInt8.toNat_ofNat_of_lt' (show high + 240 < 256 by omega)
  have hlead : ¬high + 240 < 128 ∧ ¬high + 240 < 224 ∧ ¬high + 240 < 240 ∧
      240 ≤ high + 240 ∧ high + 240 < 248 := by omega
  simp only [starting, UInt8.lt_iff_toNat_lt, UInt8.le_iff_toNat_le, hbyte, UInt8.reduceToNat,
    hlead, and_false, and_self, ↓reduceIte, quadruple?, continuation?_ofNat hlow,
    continuation?_ofNat hmiddle, continuation?_ofNat hupper, Option.bind_eq_bind,
    Option.bind_some, Nat.add_sub_cancel, hlong]

/-- The glyph at the front of an encoded character is that character. -/
theorem starting_utf8EncodeChar (c : Char) :
    ∃ lead more, String.utf8EncodeChar c = lead :: more ∧
      ∀ rest, starting lead (more ++ rest) = .char c := by
  have hback : Char.ofNat c.val.toNat = c := Char.ofNat_toNat c
  have hvalid : c.val.toNat < 0xD800 ∨ 0xDFFF < c.val.toNat ∧ c.val.toNat < 0x110000 :=
    c.valid
  rw [String.utf8EncodeChar]
  generalize c.val.toNat = code at hback hvalid ⊢
  split_ifs with hone htwo hthree
  · refine ⟨_, _, rfl, fun rest => ?_⟩
    rw [List.nil_append, starting_single hone, hback]
  · refine ⟨_, _, rfl, fun rest => ?_⟩
    have hcode : code / 64 % 32 * 64 + code % 64 = code := by omega
    refine (starting_pair (by omega) (by omega) (by omega) _).trans ?_
    rw [hcode, hback]
  · refine ⟨_, _, rfl, fun rest => ?_⟩
    have hcode : (code / 4096 % 16 * 64 + code / 64 % 64) * 64 + code % 64 = code := by omega
    refine (starting_triple (by omega) (by omega) (by omega) (by omega) (by omega) _).trans ?_
    rw [hcode, hback]
  · refine ⟨_, _, rfl, fun rest => ?_⟩
    have hcode : ((code / 262144 % 8 * 64 + code / 4096 % 64) * 64 + code / 64 % 64) * 64 +
        code % 64 = code := by omega
    refine (starting_quadruple (by omega) (by omega) (by omega) (by omega) (by omega) _).trans ?_
    rw [hcode, hback]

end Glyph

/-- A character below 128 is one byte, and every byte of another is 128 or more. -/
theorem utf8EncodeChar_ascii_or_high (c : Char) :
    (c.toNat < 128 ∧ String.utf8EncodeChar c = [UInt8.ofNat c.toNat]) ∨
      (128 ≤ c.toNat ∧ ∀ byte ∈ String.utf8EncodeChar c, 128 ≤ byte.toNat) := by
  rw [String.utf8EncodeChar]
  change ((c.val.toNat < 128 ∧ _ = [UInt8.ofNat c.val.toNat]) ∨ (128 ≤ c.val.toNat ∧ _))
  generalize c.val.toNat = code
  split_ifs with hone htwo hthree
  · exact .inl ⟨by omega, rfl⟩
  all_goals
    refine .inr ⟨by omega, ?_⟩
    simp only [List.mem_cons, List.not_mem_nil, or_false, forall_eq_or_imp, forall_eq,
      UInt8.toNat_ofNat']
    omega

theorem glyphs_utf8EncodeChar_append (c : Char) (rest : Bytes) :
    glyphs (String.utf8EncodeChar c ++ rest) = .char c :: glyphs rest := by
  obtain ⟨lead, more, hencode, hstarting⟩ := Glyph.starting_utf8EncodeChar c
  have hlength : c.utf8Size - 1 = more.length := by
    rw [← String.length_utf8EncodeChar, hencode]
    rfl
  rw [hencode, List.cons_append, glyphs_cons, hstarting, Glyph.width, hlength,
    List.drop_left]

/-- Encoded characters are read back, and what follows them is read as it would be
alone. -/
theorem glyphs_encode_append (chars : List Char) (rest : Bytes) :
    glyphs (encode chars ++ rest) = chars.map .char ++ glyphs rest := by
  induction chars with
  | nil => rfl
  | cons c chars ih =>
      rw [encode_cons, List.append_assoc, glyphs_utf8EncodeChar_append, ih]
      rfl

theorem glyphs_encode (chars : List Char) : glyphs (encode chars) = chars.map .char := by
  simpa using glyphs_encode_append chars []

theorem mapChars_encode (f : Char → Char) (chars : List Char) :
    mapChars f (encode chars) = encode (chars.map f) := by
  rw [mapChars, glyphs_encode, List.flatMap_map, encode, List.flatMap_map]
  rfl

/-! ### Lines -/

namespace Glyph

theorem continuation?_line : continuation? 10 = none := by decide

theorem pair?_append_line (lead : UInt8) (rest later : Bytes) :
    pair? lead (rest ++ 10 :: later) = pair? lead rest := by
  rcases rest with _ | ⟨b₁, rest⟩
  · simp [pair?, continuation?_line]
  · rfl

theorem triple?_append_line (lead : UInt8) (rest later : Bytes) :
    triple? lead (rest ++ 10 :: later) = triple? lead rest := by
  rcases rest with _ | ⟨b₁, _ | ⟨b₂, rest⟩⟩
  · cases later <;> simp [triple?, continuation?_line]
  · simp [triple?, continuation?_line]
  · rfl

theorem quadruple?_append_line (lead : UInt8) (rest later : Bytes) :
    quadruple? lead (rest ++ 10 :: later) = quadruple? lead rest := by
  rcases rest with _ | ⟨b₁, _ | ⟨b₂, _ | ⟨b₃, rest⟩⟩⟩
  · rcases later with _ | ⟨_, _ | ⟨_, later⟩⟩ <;> simp [quadruple?, continuation?_line]
  · cases later <;> simp [quadruple?, continuation?_line]
  · simp [quadruple?, continuation?_line]
  · rfl

/-- A line feed continues no sequence, so the glyph before it is what it is without. -/
theorem starting_append_line (lead : UInt8) (rest later : Bytes) :
    starting lead (rest ++ 10 :: later) = starting lead rest := by
  simp only [starting, pair?_append_line, triple?_append_line, quadruple?_append_line]

theorem toNat_ofNat_le (code : Nat) : (Char.ofNat code).toNat ≤ code := by
  by_cases hvalid : code.isValidChar
  · rw [Char.ofNat, dif_pos hvalid]
    exact Nat.le_refl _
  · rw [Char.ofNat, dif_neg hvalid]
    exact Nat.zero_le _

/-- A small code point takes few bytes. -/
theorem utf8Size_ofNat_le (code : Nat) :
    (code < 0x80 → (Char.ofNat code).utf8Size ≤ 1) ∧
      (code < 0x800 → (Char.ofNat code).utf8Size ≤ 2) ∧
      (code < 0x10000 → (Char.ofNat code).utf8Size ≤ 3) := by
  have hle : (Char.ofNat code).val.toNat ≤ code := toNat_ofNat_le code
  rw [Char.utf8Size]
  simp only [UInt32.le_iff_toNat_le, UInt32.toNat_ofNatLT]
  split_ifs <;> omega

theorem continuation?_lt {byte : UInt8} {low : Nat} (hlow : continuation? byte = some low) :
    low < 64 := by
  rw [continuation?] at hlow
  split_ifs at hlow with hrange
  simp only [UInt8.le_iff_toNat_le, UInt8.reduceToNat] at hrange
  simp only [Option.some.injEq] at hlow
  omega

theorem utf8Size_of_pair? {lead : UInt8} {rest : Bytes} {c : Char} (hlead : lead < 0xE0)
    (hpair : pair? lead rest = some c) : c.utf8Size ≤ rest.length + 1 := by
  rcases rest with _ | ⟨b₁, rest⟩
  · cases hpair
  · simp only [pair?, Option.bind_eq_bind, Option.bind_eq_some_iff] at hpair
    obtain ⟨x₁, hx₁, hcode⟩ := hpair
    split_ifs at hcode
    cases hcode
    have hlow := continuation?_lt hx₁
    simp only [UInt8.lt_iff_toNat_lt, UInt8.reduceToNat] at hlead
    have hsize := (utf8Size_ofNat_le ((lead.toNat - 0xC0) * 64 + x₁)).2.1 (by omega)
    simp only [List.length_cons]
    omega

theorem utf8Size_of_triple? {lead : UInt8} {rest : Bytes} {c : Char} (hlead : lead < 0xF0)
    (htriple : triple? lead rest = some c) : c.utf8Size ≤ rest.length + 1 := by
  rcases rest with _ | ⟨b₁, _ | ⟨b₂, rest⟩⟩
  · cases htriple
  · cases htriple
  · simp only [triple?, Option.bind_eq_bind, Option.bind_eq_some_iff] at htriple
    obtain ⟨x₁, hx₁, x₂, hx₂, hcode⟩ := htriple
    split_ifs at hcode
    cases hcode
    have hmiddle := continuation?_lt hx₁
    have hlow := continuation?_lt hx₂
    simp only [UInt8.lt_iff_toNat_lt, UInt8.reduceToNat] at hlead
    have hsize := (utf8Size_ofNat_le (((lead.toNat - 0xE0) * 64 + x₁) * 64 + x₂)).2.2
      (by omega)
    simp only [List.length_cons]
    omega

theorem utf8Size_of_quadruple? {lead : UInt8} {rest : Bytes} {c : Char}
    (hquadruple : quadruple? lead rest = some c) : c.utf8Size ≤ rest.length + 1 := by
  rcases rest with _ | ⟨b₁, _ | ⟨b₂, _ | ⟨b₃, rest⟩⟩⟩
  · cases hquadruple
  · cases hquadruple
  · cases hquadruple
  · have hsize := Char.utf8Size_le_four c
    simp only [List.length_cons]
    omega

/-- A glyph takes no more bytes than there are. -/
theorem width_starting_le (lead : UInt8) (rest : Bytes) :
    (starting lead rest).width ≤ rest.length + 1 := by
  rw [starting]
  split
  · next c hchar =>
      split_ifs at hchar with hone htwo hthree hfour
      · cases hchar
        have hsize := (utf8Size_ofNat_le lead.toNat).1 hone
        simp only [width]
        omega
      · exact utf8Size_of_pair? htwo.2 hchar
      · exact utf8Size_of_triple? hthree.2 hchar
      · exact utf8Size_of_quadruple? hchar
  · simp only [width]
    omega

end Glyph

/-- What stands on a line is read alike whatever the later lines are. -/
theorem glyphs_append_line (text later : Bytes) :
    glyphs (text ++ 10 :: later) = glyphs text ++ .char '\n' :: glyphs later := by
  match text with
  | [] =>
      rw [List.nil_append, glyphs_cons]
      rfl
  | lead :: rest =>
      have hwidth := Glyph.width_starting_le lead rest
      rw [List.cons_append, glyphs_cons, glyphs_cons, Glyph.starting_append_line,
        List.drop_append_of_le_length (by omega), glyphs_append_line]
      rfl
termination_by text.length
decreasing_by
  simp only [List.length_drop, List.length_cons]
  omega

/-! ### Glyphs written back -/

namespace Glyph

theorem val_ofNat {code : Nat} (hvalid : code.isValidChar) :
    (Char.ofNat code).val.toNat = code := by
  rw [Char.ofNat, dif_pos hvalid]
  rfl

theorem ofNat_of_continuation? {byte : UInt8} {low : Nat}
    (hlow : continuation? byte = some low) : UInt8.ofNat (low + 128) = byte := by
  rw [continuation?] at hlow
  split_ifs at hlow with hrange
  simp only [UInt8.le_iff_toNat_le, UInt8.reduceToNat] at hrange
  simp only [Option.some.injEq] at hlow
  rw [show low + 128 = byte.toNat by omega, UInt8.ofNat_toNat]

theorem utf8EncodeChar_of_pair? {lead : UInt8} {rest : Bytes} {c : Char}
    (hlead : 0xC0 ≤ lead ∧ lead < 0xE0) (hpair : pair? lead rest = some c) :
    ∃ more, String.utf8EncodeChar c = lead :: more ∧ more <+: rest := by
  rcases rest with _ | ⟨b₁, rest⟩
  · cases hpair
  · simp only [pair?, Option.bind_eq_bind, Option.bind_eq_some_iff] at hpair
    obtain ⟨x₁, hx₁, hcode⟩ := hpair
    split_ifs at hcode with hlong
    cases hcode
    have hlow := continuation?_lt hx₁
    simp only [UInt8.lt_iff_toNat_lt, UInt8.le_iff_toNat_le, UInt8.reduceToNat] at hlead
    generalize hdef : (lead.toNat - 0xC0) * 64 + x₁ = code at hlong ⊢
    have hfirst : code / 64 % 32 + 192 = lead.toNat := by omega
    have hsecond : code % 64 = x₁ := by omega
    refine ⟨[b₁], ?_, rest, rfl⟩
    rw [String.utf8EncodeChar, val_ofNat (.inl (by omega)), if_neg (by omega),
      if_pos (by omega), hfirst, hsecond, ofNat_of_continuation? hx₁, UInt8.ofNat_toNat]

theorem utf8EncodeChar_of_triple? {lead : UInt8} {rest : Bytes} {c : Char}
    (hlead : 0xE0 ≤ lead ∧ lead < 0xF0) (htriple : triple? lead rest = some c) :
    ∃ more, String.utf8EncodeChar c = lead :: more ∧ more <+: rest := by
  rcases rest with _ | ⟨b₁, _ | ⟨b₂, rest⟩⟩
  · cases htriple
  · cases htriple
  · simp only [triple?, Option.bind_eq_bind, Option.bind_eq_some_iff] at htriple
    obtain ⟨x₁, hx₁, x₂, hx₂, hcode⟩ := htriple
    split_ifs at hcode with hlong
    cases hcode
    have hmiddle := continuation?_lt hx₁
    have hlow := continuation?_lt hx₂
    simp only [UInt8.lt_iff_toNat_lt, UInt8.le_iff_toNat_le, UInt8.reduceToNat] at hlead
    generalize hdef : ((lead.toNat - 0xE0) * 64 + x₁) * 64 + x₂ = code at hlong ⊢
    have hfirst : code / 4096 % 16 + 224 = lead.toNat := by omega
    have hsecond : code / 64 % 64 = x₁ := by omega
    have hthird : code % 64 = x₂ := by omega
    refine ⟨[b₁, b₂], ?_, rest, rfl⟩
    rw [String.utf8EncodeChar, val_ofNat (by rw [Nat.isValidChar]; omega), if_neg (by omega),
      if_neg (by omega), if_pos (by omega), hfirst, hsecond, hthird,
      ofNat_of_continuation? hx₁, ofNat_of_continuation? hx₂, UInt8.ofNat_toNat]

theorem utf8EncodeChar_of_quadruple? {lead : UInt8} {rest : Bytes} {c : Char}
    (hlead : 0xF0 ≤ lead ∧ lead < 0xF8) (hquadruple : quadruple? lead rest = some c) :
    ∃ more, String.utf8EncodeChar c = lead :: more ∧ more <+: rest := by
  rcases rest with _ | ⟨b₁, _ | ⟨b₂, _ | ⟨b₃, rest⟩⟩⟩
  · cases hquadruple
  · cases hquadruple
  · cases hquadruple
  · simp only [quadruple?, Option.bind_eq_bind, Option.bind_eq_some_iff] at hquadruple
    obtain ⟨x₁, hx₁, x₂, hx₂, x₃, hx₃, hcode⟩ := hquadruple
    split_ifs at hcode with hlong
    cases hcode
    have hupper := continuation?_lt hx₁
    have hmiddle := continuation?_lt hx₂
    have hlow := continuation?_lt hx₃
    simp only [UInt8.lt_iff_toNat_lt, UInt8.le_iff_toNat_le, UInt8.reduceToNat] at hlead
    generalize hdef : (((lead.toNat - 0xF0) * 64 + x₁) * 64 + x₂) * 64 + x₃ = code at hlong ⊢
    have hfirst : code / 262144 % 8 + 240 = lead.toNat := by omega
    have hsecond : code / 4096 % 64 = x₁ := by omega
    have hthird : code / 64 % 64 = x₂ := by omega
    have hfourth : code % 64 = x₃ := by omega
    refine ⟨[b₁, b₂, b₃], ?_, rest, rfl⟩
    rw [String.utf8EncodeChar, val_ofNat (by rw [Nat.isValidChar]; omega), if_neg (by omega),
      if_neg (by omega), if_neg (by omega), hfirst, hsecond, hthird, hfourth,
      ofNat_of_continuation? hx₁, ofNat_of_continuation? hx₂, ofNat_of_continuation? hx₃,
      UInt8.ofNat_toNat]

theorem length_bytes (glyph : Glyph) : glyph.bytes.length = glyph.width := by
  cases glyph with
  | char c => exact String.length_utf8EncodeChar c
  | stray byte => rfl

/-- The glyph at the front of a text was read from the bytes there. -/
theorem bytes_starting (lead : UInt8) (rest : Bytes) :
    ∃ more, (starting lead rest).bytes = lead :: more ∧ more <+: rest := by
  rw [starting]
  split
  · next c hchar =>
      split_ifs at hchar with hone htwo hthree hfour
      · cases hchar
        have hcode : lead.toNat < 128 := hone
        refine ⟨[], ?_, List.nil_prefix⟩
        rw [bytes, String.utf8EncodeChar, val_ofNat (.inl (by omega)), if_pos (by omega),
          UInt8.ofNat_toNat]
      · exact utf8EncodeChar_of_pair? htwo hchar
      · exact utf8EncodeChar_of_triple? hthree hchar
      · exact utf8EncodeChar_of_quadruple? hfour hchar
  · exact ⟨[], rfl, List.nil_prefix⟩

end Glyph

/-- Reading a text as glyphs and writing them back loses nothing. -/
theorem glyphBytes_glyphs (text : Bytes) : glyphBytes (glyphs text) = text := by
  match text with
  | [] => rfl
  | lead :: rest =>
      obtain ⟨more, hbytes, later, hrest⟩ := Glyph.bytes_starting lead rest
      have hwidth : (Glyph.starting lead rest).width - 1 = more.length := by
        rw [← Glyph.length_bytes, hbytes]
        rfl
      rw [glyphs_cons, hwidth, glyphBytes, List.flatMap_cons, ← glyphBytes,
        glyphBytes_glyphs, hbytes, ← hrest, List.drop_left, List.cons_append]
termination_by text.length
decreasing_by
  simp only [List.length_drop, List.length_cons]
  omega

/-- A text that starts with characters starts with their bytes. -/
theorem eq_encode_append {text : Bytes} {chars : List Char} {rest : List Glyph}
    (hglyphs : glyphs text = chars.map .char ++ rest) :
    text = encode chars ++ glyphBytes rest := by
  rw [← glyphBytes_map_char, ← glyphBytes_append, ← hglyphs, glyphBytes_glyphs]

end MiniLisp
