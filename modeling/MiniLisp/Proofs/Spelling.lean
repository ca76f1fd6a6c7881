import MiniLisp.Proofs.Literals
import MiniLisp.Proofs.UpperCase
import MiniLisp.Symbol
import MiniLisp.Value.Printer

/-!
The spelling of values.  A value that can be read is made of symbols in upper case,
numbers and texts; `Atom` says how each of them is spelled, and `Spelled` how the
printer puts them together.  The external form of such a value is its spelling.
-/

namespace MiniLisp

/-! ### Numbers -/

def decimalChars (n : Int) : List Char :=
  if n < 0 then '-' :: Nat.toDigits 10 n.natAbs else Nat.toDigits 10 n.natAbs

theorem digit_range {c : Char} (hdigit : Lexer.isDigit c = true) :
    48 ≤ c.toNat ∧ c.toNat ≤ 57 := by
  simp only [Lexer.isDigit, Bool.and_eq_true, decide_eq_true_eq, Char.le_def,
    UInt32.le_iff_toNat_le] at hdigit
  exact hdigit

theorem digit_noMark {c : Char} (hdigit : Lexer.isDigit c = true) :
    Lexer.isMark c = false ∧ isBlank c = false := by
  have hall : ∀ code < 58, 48 ≤ code → Lexer.isMark (Char.ofNat code) = false ∧
      isBlank (Char.ofNat code) = false := by decide
  obtain ⟨hlow, hhigh⟩ := digit_range hdigit
  simpa using hall c.toNat (by omega) hlow

theorem isDigit_of_mem_toDigits {n : Nat} {c : Char} (hmem : c ∈ Nat.toDigits 10 n) :
    Lexer.isDigit c = true := by
  have hdigit := Nat.isDigit_of_mem_toDigits (by decide) (by decide) hmem
  simpa [Char.isDigit, Lexer.isDigit, Char.le_def] using hdigit

theorem utf8EncodeChar_digit {c : Char} (hdigit : Lexer.isDigit c = true) :
    String.utf8EncodeChar c = [UInt8.ofNat c.toNat] := by
  have hrange := digit_range hdigit
  rcases utf8EncodeChar_ascii_or_high c with ⟨_, hsingle⟩ | ⟨hhigh, _⟩
  · exact hsingle
  · omega

theorem encode_digits {digits : List Char} (hdigits : ∀ c ∈ digits, Lexer.isDigit c = true) :
    encode digits = digits.map fun digit => UInt8.ofNat digit.toNat := by
  induction digits with
  | nil => rfl
  | cons c digits ih =>
      rw [encode_cons, utf8EncodeChar_digit (hdigits c (by simp)),
        ih fun later hmem => hdigits later (by simp [hmem])]
      rfl

theorem decimal_eq_encode (n : Int) : decimal n = encode (decimalChars n) := by
  have hdigits : decimalNat n.natAbs = encode (Nat.toDigits 10 n.natAbs) :=
    (encode_digits fun c hmem => isDigit_of_mem_toDigits hmem).symm
  rw [decimal, decimalChars, hdigits]
  split_ifs
  · rfl
  · rfl

theorem readDigit_digit {c : Char} (hdigit : Lexer.isDigit c = true) (value : Nat) :
    readDigit (some value) (UInt8.ofNat c.toNat) = some (10 * value + (c.toNat - 48)) := by
  have hrange := digit_range hdigit
  have hbyte : (UInt8.ofNat c.toNat).toNat = c.toNat :=
    UInt8.toNat_ofNat_of_lt' (show c.toNat < 256 by omega)
  have hvalue : digitValue? (UInt8.ofNat c.toNat) = some (c.toNat - 48) := by
    rw [digitValue?, if_pos, hbyte]
    simp only [UInt8.le_iff_toNat_le, hbyte, UInt8.reduceToNat]
    exact hrange
  simp [readDigit, hvalue]

theorem foldl_readDigit {digits : List Char} (hdigits : ∀ c ∈ digits, Lexer.isDigit c = true)
    (value : Nat) :
    (digits.map fun digit => UInt8.ofNat digit.toNat).foldl readDigit (some value) =
      some (Nat.ofDigitChars 10 digits value) := by
  induction digits generalizing value with
  | nil => rfl
  | cons c digits ih =>
      rw [List.map_cons, List.foldl_cons, readDigit_digit (hdigits c (by simp)),
        ih fun later hmem => hdigits later (by simp [hmem])]
      rfl

/-- Reading the digits of a number gives the number back. -/
theorem readNat?_decimalNat (n : Nat) : readNat? (decimalNat n) = some n := by
  have hsome : ¬(decimalNat n).isEmpty = true := by
    simp [decimalNat, Nat.toDigits_ne_nil]
  rw [readNat?, if_neg hsome, decimalNat,
    foldl_readDigit fun c hmem => isDigit_of_mem_toDigits hmem,
    Nat.ofDigitChars_toDigits (by decide) (by decide)]

/-- Reading a number in decimal gives the number back. -/
theorem readInt?_decimal (n : Int) : readInt? (decimal n) = some n := by
  have hread := readNat?_decimalNat n.natAbs
  rw [decimal]
  split_ifs with hsign
  · have hminus : utf8 "-" ++ decimalNat n.natAbs = 45 :: decimalNat n.natAbs := rfl
    rw [hminus, readInt?, hread]
    simp only [Option.bind_eq_bind, Option.bind_some, Option.pure_def, Option.map_some,
      Option.some.injEq]
    omega
  · obtain ⟨c, digits, hdigits⟩ :=
      List.exists_cons_of_ne_nil (Nat.toDigits_ne_nil (n := n.natAbs) (b := 10))
    have hmem : c ∈ Nat.toDigits 10 n.natAbs := by simp [hdigits]
    have hrange := digit_range (isDigit_of_mem_toDigits hmem)
    have hbyte : (UInt8.ofNat c.toNat).toNat = c.toNat :=
      UInt8.toNat_ofNat_of_lt' (show c.toNat < 256 by omega)
    have hbytes : decimalNat n.natAbs =
        UInt8.ofNat c.toNat :: digits.map fun digit => UInt8.ofNat digit.toNat := by
      rw [decimalNat, hdigits]
      rfl
    -- The first byte is a digit, so it is neither of the signs.
    have hsigns : UInt8.ofNat c.toNat ≠ 45 ∧ UInt8.ofNat c.toNat ≠ 43 := by
      constructor <;> intro heq <;> rw [heq] at hbyte <;> simp at hbyte <;> omega
    rw [hbytes] at hread ⊢
    rw [readInt?, hread]
    · simp only [Option.bind_eq_bind, Option.bind_some, Option.pure_def, Option.map_some,
        Option.some.injEq]
      omega
    · rintro _ heq
      exact hsigns.1 (List.cons.inj heq).1
    · rintro _ heq
      exact hsigns.2 (List.cons.inj heq).1

/-- A number starts like one, and has digits behind its first character. -/
theorem decimalChars_spec (n : Int) :
    ∃ first rest, decimalChars n = first :: rest ∧ Lexer.isMark first = false ∧
      isBlank first = false ∧ (∀ c ∈ rest, Lexer.isDigit c = true) ∧
      ∀ later, Lexer.startsInt first (rest.map .char ++ later) = true := by
  obtain ⟨c, digits, hdigits⟩ :=
    List.exists_cons_of_ne_nil (Nat.toDigits_ne_nil (n := n.natAbs) (b := 10))
  have hall : ∀ c' ∈ c :: digits, Lexer.isDigit c' = true :=
    fun c' hmem => isDigit_of_mem_toDigits (hdigits ▸ hmem)
  have hfirst := hall c (by simp)
  rw [decimalChars, hdigits]
  split_ifs
  · refine ⟨'-', c :: digits, rfl, rfl, rfl, hall, fun later => ?_⟩
    simp [Lexer.startsInt, Glyph.satisfies, hfirst]
  · obtain ⟨hmark, hblank⟩ := digit_noMark hfirst
    refine ⟨c, digits, rfl, hmark, hblank, fun c' hmem => hall c' (by simp [hmem]), ?_⟩
    intro later
    simp [Lexer.startsInt, hfirst]

/-! ### Symbols -/

/-- The characters of a symbol: none of them ends a symbol, the first is no mark, and
they are neither the beginning of a number nor a dot alone. -/
structure Word (first : Char) (rest : List Char) : Prop where
  symbolChars : ∀ c ∈ first :: rest, Lexer.isSymbolChar c = true
  noMark : Lexer.isMark first = false
  noNumber : Lexer.startsInt first (rest.map .char) = false
  noDot : first = '.' → rest ≠ []

theorem isSymbolChar_upperChar {c : Char} (hc : Lexer.isSymbolChar c = true) :
    Lexer.isSymbolChar (upperChar c) = true := by
  rcases upperChar_eq_or_letter c with hsame | hletter
  · rwa [hsame]
  · exact hletter.symbolChar

theorem isDigit_of_upperChar {c : Char} (hdigit : Lexer.isDigit (upperChar c) = true) :
    Lexer.isDigit c = true := by
  rcases upperChar_eq_or_letter c with hsame | hletter
  · rwa [hsame] at hdigit
  · rw [hletter.noDigit] at hdigit
    cases hdigit

/-- Upper case turns nothing into the beginning of a number. -/
theorem startsInt_upperChar {first : Char} {rest : List Char}
    (hnumber : Lexer.startsInt first (rest.map .char) = false) :
    Lexer.startsInt (upperChar first) ((rest.map upperChar).map .char) = false := by
  simp only [Lexer.startsInt, Bool.or_eq_false_iff] at hnumber ⊢
  rcases upperChar_eq_or_letter first with hsame | hletter
  · rw [hsame]
    refine ⟨hnumber.1, ?_⟩
    rw [Bool.and_eq_false_iff] at hnumber ⊢
    rcases hnumber.2 with hsign | hrest
    · exact .inl hsign
    · right
      rcases rest with _ | ⟨c, rest⟩
      · rfl
      · cases hdigit : Lexer.isDigit (upperChar c) with
        | false => exact hdigit
        | true =>
            have hc := isDigit_of_upperChar hdigit
            simp [Glyph.satisfies, hc] at hrest
  · simp [hletter.noDigit, hletter.noSign]

/-- A symbol in upper case is a symbol. -/
theorem Word.upper {first : Char} {rest : List Char} (hword : Word first rest) :
    Word (upperChar first) (rest.map upperChar) := by
  constructor
  · intro c hmem
    rw [← List.map_cons] at hmem
    obtain ⟨c', hmem', rfl⟩ := List.mem_map.mp hmem
    exact isSymbolChar_upperChar (hword.symbolChars c' hmem')
  · rcases upperChar_eq_or_letter first with hsame | hletter
    · rw [hsame]
      exact hword.noMark
    · exact hletter.noMark
  · exact startsInt_upperChar hword.noNumber
  · intro hdot
    rcases upperChar_eq_or_letter first with hsame | hletter
    · rw [hsame] at hdot
      simpa using hword.noDot hdot
    · exact absurd hdot hletter.noDot

theorem intern_encode (name : List Char) :
    Symbol.intern (encode name) = ⟨encode (name.map upperChar)⟩ := by
  rw [Symbol.intern, upcase, mapChars_encode]

/-! ### Values -/

/-- How the values that are no pairs are spelled. -/
inductive Atom : Value → List Char → Prop
  | symbol {first : Char} {rest : List Char} (hword : Word first rest)
      (hupper : (first :: rest).map upperChar = first :: rest) :
      Atom (.symbol ⟨encode (first :: rest)⟩) (first :: rest)
  | int (n : Int64) : Atom (.int n) (decimalChars n.toInt)
  | text (chars : List Char) :
      Atom (.text (encode chars)) (Literal.enclose (chars.flatMap Literal.escapeChar))

/-- The values that can be read. -/
inductive Readable : Value → Prop
  | atom {value : Value} {chars : List Char} (hatom : Atom value chars) : Readable value
  | pair {head tail : Value} (hhead : Readable head) (htail : Readable tail) :
      Readable (.pair head tail)

/-- How a value is spelled, where `inList` says that it is the tail of a list whose
earlier items are spelled already. -/
inductive Spelled : (value : Value) → (inList : Bool) → List Char → Prop
  | atom {value : Value} {chars : List Char} (hatom : Atom value chars) :
      Spelled value false chars
  | list {head tail : Value} {chars chars' : List Char} (hhead : Spelled head false chars)
      (htail : Spelled tail true chars') :
      Spelled (.pair head tail) false ('(' :: (chars ++ (chars' ++ [')'])))
  | next {head tail : Value} {chars chars' : List Char} (hhead : Spelled head false chars)
      (htail : Spelled tail true chars') :
      Spelled (.pair head tail) true (' ' :: (chars ++ chars'))
  | ended : Spelled .empty true []
  | dotted {value : Value} {chars : List Char} (hatom : Atom value chars)
      (hmore : value ≠ .empty) : Spelled value true (' ' :: '.' :: ' ' :: chars)

theorem Readable.spelled {value : Value} (hreadable : Readable value) (inList : Bool) :
    ∃ chars, Spelled value inList chars := by
  induction hreadable generalizing inList with
  | @atom value chars hatom =>
      cases inList with
      | false => exact ⟨_, .atom hatom⟩
      | true =>
          by_cases hempty : value = .empty
          · subst hempty
            exact ⟨[], .ended⟩
          · exact ⟨_, .dotted hatom hempty⟩
  | pair _ _ ihhead ihtail =>
      obtain ⟨chars, hhead⟩ := ihhead false
      obtain ⟨chars', htail⟩ := ihtail true
      cases inList with
      | false => exact ⟨_, .list hhead htail⟩
      | true => exact ⟨_, .next hhead htail⟩

theorem atomForm_of_atom {value : Value} {chars : List Char} (hatom : Atom value chars) :
    value.atomForm = encode chars := by
  cases hatom with
  | symbol => rfl
  | int n => exact decimal_eq_encode n.toInt
  | text chars => exact Literal.quote_encode chars

theorem isEmpty_eq_false {value : Value} (hmore : value ≠ .empty) : value.isEmpty = false := by
  cases value with
  | symbol s =>
      have hname : s ≠ .empty := fun heq => hmore (heq ▸ rfl)
      simpa [Value.isEmpty] using hname
  | _ => rfl

theorem piecesOnto_of_atom {value : Value} {chars : List Char} (hatom : Atom value chars)
    (done : List Bytes) :
    value.piecesOnto false done = encode chars :: done ∧
      (value ≠ .empty →
        value.piecesOnto true done = encode chars :: utf8 " . " :: done) := by
  rw [← atomForm_of_atom hatom]
  have hpieces : ∀ value : Value, value ≠ .empty → value.isEmpty = false :=
    fun _ => isEmpty_eq_false
  cases hatom with
  | symbol => exact ⟨rfl, fun hmore => by simp [Value.piecesOnto, hpieces _ hmore]⟩
  | int n => exact ⟨rfl, fun _ => rfl⟩
  | text chars => exact ⟨rfl, fun _ => rfl⟩

/-- The pieces of a value are its spelling. -/
theorem flatten_piecesOnto {value : Value} {inList : Bool} {chars : List Char}
    (hspelled : Spelled value inList chars) (done : List Bytes) :
    (value.piecesOnto inList done).reverse.flatten =
      done.reverse.flatten ++ encode chars := by
  induction hspelled generalizing done with
  | atom hatom =>
      rw [(piecesOnto_of_atom hatom done).1]
      simp
  | @list head tail chars chars' _ _ ihhead ihtail =>
      have hencode : encode ('(' :: (chars ++ (chars' ++ [')']))) =
          utf8 "(" ++ (encode chars ++ (encode chars' ++ utf8 ")")) := by
        rw [encode_cons, encode_append, encode_append]
        rfl
      rw [Value.piecesOnto, List.reverse_cons, List.flatten_append, ihtail, ihhead, hencode]
      simp
  | @next head tail chars chars' _ _ ihhead ihtail =>
      have hencode : encode (' ' :: (chars ++ chars')) =
          utf8 " " ++ (encode chars ++ encode chars') := by
        rw [encode_cons, encode_append]
        rfl
      rw [Value.piecesOnto, ihtail, ihhead, hencode]
      simp
  | ended => simp [Value.piecesOnto, Value.empty, Value.isEmpty]
  | @dotted value chars hatom hmore =>
      have hencode : encode (' ' :: '.' :: ' ' :: chars) = utf8 " . " ++ encode chars := rfl
      rw [(piecesOnto_of_atom hatom done).2 hmore, hencode]
      simp

/-- The text that a readable value gives of itself is its spelling. -/
theorem form_eq_encode {value : Value} {chars : List Char}
    (hspelled : Spelled value false chars) : value.form = encode chars := by
  have hrender : value.render = encode chars := by
    rw [Value.render, Value.pieces, flatten_piecesOnto hspelled]
    rfl
  rw [← hrender]
  rcases hspelled with ⟨⟨_, _⟩ | _ | _⟩ | _
  all_goals rfl

end MiniLisp
