import MiniLisp.Proofs.Completable
import MiniLisp.Proofs.ReadValues

/-!
What stands behind a line feed.  A text that can be read is read alike whatever follows it on
later lines: all of its expressions come before those of the later lines, and its first
expression is the first of the longer text.  The scannerless reader reads none of them,
though, before it has checked the encoding and the nesting of the whole text.
-/

namespace MiniLisp

/-! ### The token reader -/

namespace TokenReader

/-- The tokens of a text stay the first ones when a line follows. -/
theorem ahead_append_line (file text later : Bytes) (limit : Int) :
    ∃ more, (ofBytes file (text ++ 10 :: later) limit).ahead =
      (ofBytes file text limit).ahead ++ more := by
  obtain ⟨final, _, _, _, hlater⟩ :=
    Lexer.tokens_withLine (show (Lexer.ofBytes file text).fault = none from rfl)
  have htokens := (hlater (glyphs later)).1
  rw [← Lexer.ofBytes_append_line] at htokens
  exact ⟨_, htokens⟩

/-- An expression that is complete is complete whatever tokens follow. -/
theorem readOver_append {reader : TokenReader} {tokens : List Token} {nest : Nest}
    {value : Value} (hread : (reader.readOver tokens nest).1 = .ok value)
    (reader' : TokenReader) (hlimit : reader'.limit = reader.limit) (more : List Token) :
    (reader'.readOver (tokens ++ more) nest).1 = .ok value := by
  induction tokens generalizing nest with
  | nil => cases hread
  | cons token tokens ih =>
      rw [List.cons_append, readOver, hlimit]
      rw [readOver] at hread
      cases hstep : nest.step reader.limit token with
      | more after =>
          rw [hstep] at hread
          exact ih hread
      | done found =>
          rw [hstep] at hread
          exact hread
      | fault error =>
          rw [hstep] at hread
          cases hread

theorem not_onlyComments_of_readOver {reader : TokenReader} {tokens : List Token}
    {value : Value} (hread : (reader.readOver tokens .top).1 = .ok value) :
    ¬OnlyComments tokens := by
  induction tokens with
  | nil => cases hread
  | cons token tokens ih =>
      intro hcomments
      obtain ⟨hkind, hcomments⟩ := onlyComments_cons.mp hcomments
      rw [readOver, Nest.step_comment hkind] at hread
      exact ih hread hcomments

/-- The first of all expressions of a text is the first one of every longer text. -/
theorem readFirst_append_line {file text : Bytes} {limit : Int} {value : Value}
    {rest : List Value} (hread : (ofBytes file text limit).readAll.1 = .ok (value :: rest))
    (later : Bytes) :
    (ofBytes file (text ++ 10 :: later) limit).readFirst.1 = .ok value := by
  have hfirst := readOver_of_readAllOver hread
  obtain ⟨more, hmore⟩ := ahead_append_line file text later limit
  obtain ⟨_, hcuts, hhonest⟩ := Lexer.tokens_ofBytes file (text ++ 10 :: later)
  rw [readFirst_eq _ hmore (hmore ▸ hcuts.isFinal) hhonest, if_neg]
  · exact readOver_append hfirst (ofBytes file (text ++ 10 :: later) limit) rfl more
  · rintro ⟨hcomments, _⟩
    exact not_onlyComments_of_readOver hfirst
      fun token hmem => hcomments token (List.mem_append_left _ hmem)

end TokenReader

/-! ### The scannerless reader -/

namespace Scannerless

/-- Values that are found stay the first. -/
theorem found_of_readAllOver {fuel count : Nat} {found values : List Value}
    {text : List Glyph} (hread : readAllOver fuel count found text = .ok values) :
    found.reverse <+: values := by
  induction count generalizing found text with
  | zero =>
      cases hread
      exact List.prefix_refl _
  | succ count ih =>
      rw [readAllOver] at hread
      split at hread
      · cases hread
      · cases hread
        exact List.prefix_refl _
      · have hprefix := ih hread
        rw [List.reverse_cons] at hprefix
        exact (List.prefix_append _ _).trans hprefix

/-- The first of all expressions of a text is the one that is found first. -/
theorem next?_of_readAllOver {fuel count : Nat} {text : List Glyph} {value : Value}
    {rest : List Value} (hread : readAllOver fuel count [] text = .ok (value :: rest)) :
    ∃ behind, next? fuel text = .ok (some (value, behind)) := by
  cases count with
  | zero => cases hread
  | succ count =>
      rw [readAllOver] at hread
      split at hread
      · cases hread
      · cases hread
      · next first behind hnext =>
          obtain ⟨more, hmore⟩ := found_of_readAllOver hread
          cases hmore
          exact ⟨behind, hnext⟩

/-- An expression that is found is found whatever follows on later lines. -/
theorem next?_append_line {fuel fuel' : Nat} {text behind : List Glyph} {value : Value}
    (hfuel : text.length < fuel) (hnext : next? fuel text = .ok (some (value, behind)))
    (later : List Glyph) (hfuel' : (text ++ .char '\n' :: later).length < fuel') :
    next? fuel' (text ++ .char '\n' :: later) =
      .ok (some (value, behind ++ .char '\n' :: later)) := by
  obtain ⟨hskip, hwalk⟩ := (next?_eq_some hfuel).mp hnext
  -- A line feed goes on with no symbol, so the walk stops where it did.
  have hblunt : Grammar.Blunt (.char '\n' :: later) := rfl
  exact (next?_eq_some hfuel').mpr
    ⟨skipTriviaOver_append_ne_nil hskip _, Grammar.walk_append hwalk fun _ => hblunt⟩

theorem readFirst_append_line {file file' text later : Bytes} {limit : Int} {value : Value}
    {rest : List Value} (hread : readAll limit file text = .ok (value :: rest))
    (hcheck : check limit file' (text ++ 10 :: later) = .ok ()) :
    readFirst limit file' (text ++ 10 :: later) = .ok value := by
  have hall : readAllOver ((glyphs text).length + 1) ((glyphs text).length + 1) []
      (glyphs text) = .ok (value :: rest) := by
    cases hfirst : check limit file text with
    | error error =>
        rw [readAll, hfirst] at hread
        cases hread
    | ok =>
        rw [readAll_eq hfirst] at hread
        exact eq_ok_of_mapError hread
  obtain ⟨behind, hnext⟩ := next?_of_readAllOver hall
  rw [readFirst_eq hcheck, glyphs_append_line,
    next?_append_line (Nat.lt_succ_self _) hnext (glyphs later) (Nat.lt_succ_self _)]

end Scannerless

/-! ### Both readers -/

namespace Reader

/-- Reading distributes over lines.  Behind a text that can be read, another text on a later
line can be read exactly if it can be read alone, and then its expressions follow those of
the first. -/
theorem readProgram_append_line {file first : Bytes} {values : List Value}
    (hfirst : Reader.tokens.readProgram file (.ofBytes first) = .ok values)
    (file' file'' later : Bytes) (all : List Value) :
    Reader.tokens.readProgram file' (.ofBytes (first ++ utf8 "\n" ++ later)) = .ok all ↔
      ∃ more, Reader.tokens.readProgram file'' (.ofBytes later) = .ok more ∧
        all = values ++ more := by
  have hread : ∀ (file text : Bytes) (values : List Value),
      Reader.tokens.readProgram file (.ofBytes text) = .ok values ↔
        (TokenReader.ofBytes file text TokenReader.defaultLimit).readAll.1 = .ok values := by
    intro file text values
    rw [readProgram_tokens]
    constructor
    · exact eq_ok_of_mapError
    · intro hall
      rw [hall]
      rfl
  simp only [hread, append_line] at hfirst ⊢
  exact TokenReader.readAll_append_line hfirst file' file'' later all

/-- A comment ends with its line, and behind it a list is read, or left open. -/
theorem readProgram_append_line_comment :
    (∃ more, Reader.tokens.readProgram defaultName (.ofBytes (utf8 "(c)")) = .ok more ∧
        Reader.tokens.readProgram defaultName
          (.ofBytes (utf8 "a ; b" ++ utf8 "\n" ++ utf8 "(c)")) =
            .ok (.symbol (.intern (utf8 "a")) :: more)) ∧
      ∀ all, Reader.tokens.readProgram defaultName
        (.ofBytes (utf8 "a ; b" ++ utf8 "\n" ++ utf8 "(c")) ≠ .ok all := by
  have hfirst : Reader.tokens.readProgram defaultName (.ofBytes (utf8 "a ; b")) =
      .ok [.symbol (.intern (utf8 "a"))] := by decide +kernel
  have hlist : Reader.tokens.readProgram defaultName (.ofBytes (utf8 "(c)")) =
      .ok [.ofList [.symbol (.intern (utf8 "c"))]] := by decide +kernel
  have hopen : (Reader.tokens.readProgram defaultName (.ofBytes (utf8 "(c"))).isOk = false := by
    decide +kernel
  have hlines := readProgram_append_line hfirst defaultName defaultName
  refine ⟨⟨_, hlist, (hlines _ _).mpr ⟨_, hlist, rfl⟩⟩, ?_⟩
  intro all hall
  obtain ⟨more, hmore, _⟩ := (hlines _ _).mp hall
  rw [hmore] at hopen
  cases hopen

/-- The checks that a reader makes of a whole text before it reads any of it.  The token
reader makes none. -/
def Passes : Reader → (text : Bytes) → Prop
  | .tokens, _ => True
  | .scannerless, text =>
      isWellFormed text = true ∧
        Nesting.overflow? TokenReader.defaultLimit (glyphs text) = none

theorem passes_iff_check (file : Bytes) {text : Bytes} :
    Reader.scannerless.Passes text ↔
      Scannerless.check TokenReader.defaultLimit file text = .ok () := by
  have hformed : isWellFormed text = true ↔ ∀ glyph ∈ glyphs text, ∃ c, glyph = .char c := by
    rw [isWellFormed, List.all_eq_true]
    refine forall₂_congr fun glyph _ => ?_
    cases glyph <;> simp [Glyph.isValid, Glyph.satisfies]
  rw [Scannerless.check_eq_ok_iff, ← hformed]
  rfl

/-- Reading the first expression of a text ignores what follows it.  Where a text reads as
some expressions, the first of them is what every longer text starts with, whatever the later
lines hold, as soon as the longer text passes the checks that are made of the whole of it.
The token reader makes none; the scannerless reader refuses the text if they fail. -/
theorem read_ignores_later_text {reader : Reader} {file text : Bytes} {value : Value}
    {rest : List Value} (hread : reader.readProgram file (.ofBytes text) = .ok (value :: rest))
    (later : Bytes) :
    reader.read (text ++ utf8 "\n" ++ later) = .ok value ↔
      reader.Passes (text ++ utf8 "\n" ++ later) := by
  have hall : reader.readAll file text = .ok (value :: rest) := eq_ok_of_mapError hread
  rw [append_line, read]
  cases reader with
  | tokens =>
      have hnamed := TokenReader.readAll_name hall defaultName
      have hfirst := TokenReader.readFirst_append_line hnamed later
      simp only [Passes, iff_true]
      exact congrArg (Except.mapError Failure.ofReadError) hfirst
  | scannerless =>
      rw [passes_iff_check defaultName]
      constructor
      · intro hvalue
        have hfirst := eq_ok_of_mapError hvalue
        cases hcheck : Scannerless.check TokenReader.defaultLimit defaultName
            (text ++ 10 :: later) with
        | ok => rfl
        | error error =>
            rw [readFirst, Scannerless.readFirst, hcheck] at hfirst
            cases hfirst
      · intro hcheck
        have hfirst := Scannerless.readFirst_append_line hall hcheck
        exact congrArg (Except.mapError Failure.ofReadError) hfirst

/-- A literal without an end is no obstacle behind the first expression, for either reader. -/
theorem read_ignores_later_text_literal :
    Reader.tokens.read (utf8 "a b" ++ utf8 "\n" ++ utf8 "(\"c") =
        .ok (.symbol (.intern (utf8 "a"))) ∧
      Reader.scannerless.read (utf8 "a b" ++ utf8 "\n" ++ utf8 "(\"c") =
        .ok (.symbol (.intern (utf8 "a"))) := by
  have hread : ∀ reader : Reader, reader.readProgram defaultName (.ofBytes (utf8 "a b")) =
      .ok [.symbol (.intern (utf8 "a")), .symbol (.intern (utf8 "b"))] := by
    intro reader
    cases reader <;> decide +kernel
  constructor
  · exact (read_ignores_later_text (hread .tokens) _).mpr trivial
  · exact (read_ignores_later_text (hread .scannerless) _).mpr
      ⟨by decide +kernel, by decide +kernel⟩

/-- A stray byte on the second line keeps the scannerless reader from reading the first. -/
theorem later_stray_byte_is_not_ignored :
    Reader.scannerless.readProgram defaultName (.ofBytes (utf8 "1")) = .ok [.int 1] ∧
      Reader.scannerless.read (utf8 "1" ++ utf8 "\n" ++ [255]) ≠ .ok (.int 1) ∧
      Reader.tokens.read (utf8 "1" ++ utf8 "\n" ++ [255]) = .ok (.int 1) := by
  decide +kernel

end Reader

end MiniLisp
